/-
  ComputerScience.Rio.Buffered
  ────────────────────────────
  **THE BUFFERED RIO READERS** (`22-netprog2/csapp.c`): `rio_read`,
  `rio_readinitb`, `rio_readnb`, `rio_readlineb`.

  A `rio_t` hides a buffer between the kernel and the caller.  Its abstraction is
  `unread`: the bytes still in the buffer followed by the bytes the kernel still
  holds.  Each routine takes a head off `unread` and nothing else (`Served`), so
  what a call returns depends on the stream alone and not on how the kernel cut
  it up.
-/
import ComputerScience.Lib.Cells
import ComputerScience.Lib.Word
import ComputerScience.Rio.Posix

namespace ComputerScience.Rio

open ComputerScience.Lib

/-! ## §1. `rio_t` and `rio_read`. -/

def RIO_BUFSIZE : ℕ := 8192

def MAXLINE : ℕ := 8192

/-- `rio_t`; `rio_fd` is the descriptor pair `Os`, `rioBufptr` an index into
`rio_buf`. -/
structure RioT where
  rioCnt : ℤ
  rioBufptr : ℕ
  rioBuf : Cells UInt8

/-- What a buffered routine leaves: its return value, the caller's buffer, the
`rio_t` and the kernel. -/
structure IoRet where
  rc : ℤ
  buf : Cells UInt8
  rp : RioT
  os : Os

/-- `rio_readinitb`. -/
def rioReadinitb (rp : RioT) : RioT := { rp with rioCnt := 0, rioBufptr := 0 }

/-- A failed `read` has used up an outcome. -/
theorem Os.read_reads_lt {os : Os} {n : ℕ} (h : (os.read n).1 < 0) :
    (os.read n).2.2.reads.length < os.reads.length := by
  obtain ⟨_, _, _, hne, htail, _⟩ := Os.read_neg h
  rw [htail, List.length_tail]
  have := List.length_pos_iff.mpr hne
  omega

theorem Os.read_reads_le (os : Os) (n : ℕ) :
    (os.read n).2.2.reads.length ≤ os.reads.length := by
  unfold Os.read
  split <;> simp_all

/-- `rp->rio_cnt = read(rp->rio_fd, rp->rio_buf, sizeof(rp->rio_buf))`. -/
def RioT.refill (rp : RioT) (os : Os) : RioT :=
  { rp with
    rioCnt := (os.read RIO_BUFSIZE).1
    rioBuf := rp.rioBuf.store 0 (os.read RIO_BUFSIZE).2.1 }

/-- The loop `while (rp->rio_cnt <= 0)` of `rio_read`.  `some rc` is the early
`return rc`, `none` leaves the loop with a nonempty buffer. -/
def rioFill (rp : RioT) (os : Os) : Option ℤ × RioT × Os :=
  if rp.rioCnt ≤ 0 then
    if (rp.refill os).rioCnt < 0 then
      if (os.read RIO_BUFSIZE).2.2.errno ≠ .eintr then
        -- an error other than `EINTR`: `return -1`
        (some (-1), rp.refill os, (os.read RIO_BUFSIZE).2.2)
      else rioFill (rp.refill os) (os.read RIO_BUFSIZE).2.2
    else if (rp.refill os).rioCnt = 0 then
      -- end of the stream: `return 0`
      (some 0, rp.refill os, (os.read RIO_BUFSIZE).2.2)
    -- data: `rp->rio_bufptr = rp->rio_buf`
    else rioFill { rp.refill os with rioBufptr := 0 } (os.read RIO_BUFSIZE).2.2
  else (none, rp, os)
termination_by os.reads.length + (if rp.rioCnt ≤ 0 then 1 else 0)
decreasing_by
  · -- an interrupted read uses up an outcome
    have hlt : (os.read RIO_BUFSIZE).2.2.reads.length < os.reads.length :=
      Os.read_reads_lt (by assumption)
    split <;> omega
  · -- a successful one ends the loop
    have := Os.read_reads_le os RIO_BUFSIZE
    rw [if_neg (by show ¬ (rp.refill os).rioCnt ≤ 0; omega), if_pos (by assumption)]
    omega

/-- `rio_read`.  The comparison `rp->rio_cnt < n` is made in `size_t`; the count is
positive there. -/
def rioRead (rp : RioT) (os : Os) (usrbuf : Cells UInt8) (bufp n : ℕ) : IoRet :=
  match rioFill rp os with
  | (some rc, rp, os) => ⟨rc, usrbuf, rp, os⟩
  | (none, rp, os) =>
      let cnt := int32 n
      let cnt := if rp.rioCnt.toNat < n then rp.rioCnt else cnt
      ⟨cnt, usrbuf.store bufp (rp.rioBuf.load rp.rioBufptr cnt.toNat),
        { rp with rioBufptr := rp.rioBufptr + cnt.toNat, rioCnt := rp.rioCnt - cnt }, os⟩

/-! ## §2. `rio_readnb` and `rio_readlineb`. -/

/-- The loop of `rio_readnb`; `none` is `return -1`, `some nleft` leaves the loop. -/
def rioReadnbLoop (rp : RioT) (os : Os) (usrbuf : Cells UInt8) (bufp nleft : ℕ) :
    Option ℕ × Cells UInt8 × RioT × Os :=
  if 0 < nleft then
    let r := rioRead rp os usrbuf bufp nleft
    if r.rc < 0 then (none, r.buf, r.rp, r.os)
    else if r.rc = 0 then (some nleft, r.buf, r.rp, r.os)
    else rioReadnbLoop r.rp r.os r.buf (bufp + r.rc.toNat) (nleft - r.rc.toNat)
  else (some nleft, usrbuf, rp, os)
termination_by nleft
decreasing_by
  show nleft - r.rc.toNat < nleft
  omega

/-- `rio_readnb`. -/
def rioReadnb (rp : RioT) (os : Os) (usrbuf : Cells UInt8) (n : ℕ) : IoRet :=
  match rioReadnbLoop rp os usrbuf 0 n with
  | (none, buf, rp, os) => ⟨-1, buf, rp, os⟩
  | (some nleft, buf, rp, os) => ⟨(n : ℤ) - nleft, buf, rp, os⟩

/-- How the `for` loop of `rio_readlineb` is left, with the counter `n` there. -/
inductive LineExit where
  /-- A newline was stored. -/
  | newline (n : ℕ)
  /-- `n < maxlen` failed. -/
  | full (n : ℕ)
  /-- End of stream with nothing read: `return 0`. -/
  | eofEmpty
  /-- End of stream after some data. -/
  | eofData (n : ℕ)
  /-- `return -1`. -/
  | error
  deriving DecidableEq, Repr

/-- The state the loop is left in. -/
structure LineRet where
  exit : LineExit
  buf : Cells UInt8
  bufp : ℕ
  rp : RioT
  os : Os

/-- `for (n = 1; n < maxlen; n++) { ... }` of `rio_readlineb`; `c` is the local
`char c`, a one-cell buffer.  The counter stays below `maxlen <= INT_MAX`, so the
`int` does not overflow. -/
def lineLoop (rp : RioT) (os : Os) (c usrbuf : Cells UInt8) (bufp n maxlen : ℕ) : LineRet :=
  if n < maxlen then
    let r := rioRead rp os c 0 1
    if r.rc = 1 then
      let usrbuf' := usrbuf.store bufp [r.buf 0]
      if r.buf 0 = 10 then ⟨.newline n, usrbuf', bufp + 1, r.rp, r.os⟩
      else lineLoop r.rp r.os r.buf usrbuf' (bufp + 1) (n + 1) maxlen
    else if r.rc = 0 then
      if n = 1 then ⟨.eofEmpty, usrbuf, bufp, r.rp, r.os⟩
      else ⟨.eofData n, usrbuf, bufp, r.rp, r.os⟩
    else ⟨.error, usrbuf, bufp, r.rp, r.os⟩
  else ⟨.full n, usrbuf, bufp, rp, os⟩
termination_by maxlen - n

/-- `rio_readlineb`: on a newline `n++` before the `break`, then `*bufp = 0` and
`return n-1`. -/
def rioReadlineb (rp : RioT) (os : Os) (usrbuf : Cells UInt8) (maxlen : ℕ) : IoRet :=
  let r := lineLoop rp os (fun _ => 0) usrbuf 0 1 maxlen
  match r.exit with
  | .newline n => ⟨((n + 1 : ℕ) : ℤ) - 1, r.buf.store r.bufp [0], r.rp, r.os⟩
  | .full n => ⟨(n : ℤ) - 1, r.buf.store r.bufp [0], r.rp, r.os⟩
  | .eofData n => ⟨(n : ℤ) - 1, r.buf.store r.bufp [0], r.rp, r.os⟩
  | .eofEmpty => ⟨0, r.buf, r.rp, r.os⟩
  | .error => ⟨-1, r.buf, r.rp, r.os⟩

/-! ## §3. Every line read uses up input.

Loops that call `rio_readlineb` until it returns `0` stop because of this count; it
needs no assumption on the kernel or on the buffer. -/

/-- The number of bytes not yet returned to the caller. -/
def unreadCount (rp : RioT) (os : Os) : ℕ := rp.rioCnt.toNat + os.stream.length

theorem Os.read_count (os : Os) (n : ℕ) :
    (os.read n).1.toNat + (os.read n).2.2.stream.length ≤ os.stream.length := by
  unfold Os.read
  split
  · simp only [Int.toNat_natCast, List.length_take, List.length_drop]
    omega
  · simp only [Int.toNat_natCast, List.length_take, List.length_drop]
    omega
  · show 0 + os.stream.length ≤ _
    omega
  · show 0 + os.stream.length ≤ _
    omega

theorem rioFill_count (rp : RioT) (os : Os) :
    unreadCount (rioFill rp os).2.1 (rioFill rp os).2.2 ≤ unreadCount rp os ∧
      ((rioFill rp os).1 = none → 0 < (rioFill rp os).2.1.rioCnt) ∧
      (∀ rc, (rioFill rp os).1 = some rc → rc ≤ 0) := by
  have hread : ∀ (rp : RioT) (os : Os), rp.rioCnt ≤ 0 →
      (rp.refill os).rioCnt.toNat + (os.read RIO_BUFSIZE).2.2.stream.length
        ≤ unreadCount rp os := by
    intro rp os _
    have := Os.read_count os RIO_BUFSIZE
    show (os.read RIO_BUFSIZE).1.toNat + _ ≤ rp.rioCnt.toNat + _
    omega
  fun_induction rioFill rp os with
  | case1 rp os hcnt hneg herr => exact ⟨hread rp os hcnt, by simp, by simp⟩
  | case2 rp os hcnt hneg herr ih => exact ⟨ih.1.trans (hread rp os hcnt), ih.2⟩
  | case3 rp os hcnt hneg hzero => exact ⟨hread rp os hcnt, by simp, by simp⟩
  | case4 rp os hcnt hneg hzero ih => exact ⟨ih.1.trans (hread rp os hcnt), ih.2⟩
  | case5 rp os hcnt => exact ⟨Nat.le_refl _, fun _ => by show 0 < rp.rioCnt; omega, by simp⟩

theorem rioRead_one_count (rp : RioT) (os : Os) (c : Cells UInt8) :
    unreadCount (rioRead rp os c 0 1).rp (rioRead rp os c 0 1).os
      + (if (rioRead rp os c 0 1).rc = 1 then 1 else 0) ≤ unreadCount rp os := by
  obtain ⟨hle, hpos, hrc⟩ := rioFill_count rp os
  unfold rioRead
  rcases hfill : rioFill rp os with ⟨_ | rc, rp', os'⟩
  · -- the buffer is not empty: one byte moves to the caller
    rw [hfill] at hle hpos
    have hpos : 0 < rp'.rioCnt := hpos rfl
    have hcnt : (if rp'.rioCnt.toNat < 1 then rp'.rioCnt else int32 (1 : ℕ)) = 1 := by
      rw [if_neg (by omega)]
      rfl
    simp only [hcnt, if_true]
    have hle' : rp'.rioCnt.toNat + os'.stream.length ≤ unreadCount rp os := hle
    show (rp'.rioCnt - 1).toNat + os'.stream.length + 1 ≤ _
    omega
  · -- the early return
    rw [hfill] at hle hrc
    have := hrc rc rfl
    simp only
    rw [if_neg (by omega)]
    exact hle

/-- The counter, the pointer and the input used, at the exit of the loop. -/
theorem lineLoop_progress (maxlen : ℕ) :
    ∀ (k : ℕ) (rp : RioT) (os : Os) (c usrbuf : Cells UInt8) (bufp n : ℕ),
      maxlen - n = k → bufp + 1 = n →
      let r := lineLoop rp os c usrbuf bufp n maxlen
      unreadCount r.rp r.os + r.bufp ≤ unreadCount rp os + bufp ∧
        match r.exit with
        | .newline m => r.bufp = m ∧ 0 < m
        | .full m => r.bufp + 1 = m ∧ maxlen ≤ m
        | .eofData m => r.bufp + 1 = m ∧ m ≠ 1
        | .eofEmpty => True
        | .error => True := by
  intro k
  -- induction on the room left, `maxlen - n`
  induction k with
  | zero =>
      intro rp os c usrbuf bufp n hk hn
      rw [lineLoop, if_neg (by omega)]
      exact ⟨Nat.le_refl _, hn, by omega⟩
  | succ k ih =>
      intro rp os c usrbuf bufp n hk hn
      have hone := rioRead_one_count rp os c
      rw [lineLoop, if_pos (by omega)]
      simp only
      split
      next hrc =>
        rw [if_pos hrc] at hone
        split
        next hnl =>
          exact ⟨by dsimp only; omega, hn, by omega⟩
        next hnl =>
          obtain ⟨h1, h2⟩ := ih _ (rioRead rp os c 0 1).os (rioRead rp os c 0 1).buf
            (usrbuf.store bufp [(rioRead rp os c 0 1).buf 0]) (bufp + 1) (n + 1)
            (by omega) (by omega)
          exact ⟨h1.trans (by omega), h2⟩
      next hrc =>
        rw [if_neg hrc] at hone
        split
        next hzero =>
          split
          next hn1 => exact ⟨by dsimp only; omega, trivial⟩
          next hn1 => exact ⟨by dsimp only; omega, hn, hn1⟩
        next hzero => exact ⟨by dsimp only; omega, trivial⟩

/-- A line with a positive count has used up input. -/
theorem rioReadlineb_count (rp : RioT) (os : Os) (usrbuf : Cells UInt8) (maxlen : ℕ)
    (hrc : 0 < (rioReadlineb rp os usrbuf maxlen).rc) :
    unreadCount (rioReadlineb rp os usrbuf maxlen).rp (rioReadlineb rp os usrbuf maxlen).os
      < unreadCount rp os := by
  obtain ⟨hle, hexit⟩ := lineLoop_progress maxlen (maxlen - 1) rp os (fun _ => 0) usrbuf 0 1 rfl rfl
  unfold rioReadlineb at hrc ⊢
  simp only at hrc ⊢
  cases he : (lineLoop rp os (fun _ => 0) usrbuf 0 1 maxlen).exit <;>
    simp only [he] at hrc hexit ⊢ <;> omega

/-! ## §4. The abstraction: the bytes not yet returned to the caller. -/

/-- The bytes left in the buffer, then the bytes left in the kernel. -/
def unread (rp : RioT) (os : Os) : List UInt8 :=
  rp.rioBuf.load rp.rioBufptr rp.rioCnt.toNat ++ os.stream

/-- The unread part of the buffer lies inside `rio_buf`. -/
def RioT.Inv (rp : RioT) : Prop := rp.rioBufptr + rp.rioCnt.toNat ≤ RIO_BUFSIZE

/-- From `(rp, os)` to `(rp', os')` exactly the bytes `bs` were taken off the
stream, and nothing else happened to it. -/
structure Served (rp : RioT) (os : Os) (bs : List UInt8) (rp' : RioT) (os' : Os) : Prop where
  unread_eq : unread rp os = bs ++ unread rp' os'
  inv : rp'.Inv
  readsOk : os'.ReadsOk
  written : os'.written = os.written
  writes : os'.writes = os.writes

theorem Served.refl {rp : RioT} {os : Os} (hinv : rp.Inv) (hok : os.ReadsOk) :
    Served rp os [] rp os :=
  ⟨rfl, hinv, hok, rfl, rfl⟩

theorem Served.trans {rp rp' rp'' : RioT} {os os' os'' : Os} {bs bs' : List UInt8}
    (h : Served rp os bs rp' os') (h' : Served rp' os' bs' rp'' os'') :
    Served rp os (bs ++ bs') rp'' os'' := by
  refine ⟨?_, h'.inv, h'.readsOk, h'.written.trans h.written, h'.writes.trans h.writes⟩
  rw [h.unread_eq, h'.unread_eq, List.append_assoc]

/-! ## §5. `rio_read` takes a nonempty head of the stream. -/

/-- `read` keeps the promise that no outcome is an error. -/
theorem Os.read_readsOk {os : Os} (hok : os.ReadsOk) (n : ℕ) : (os.read n).2.2.ReadsOk := by
  have htail : (os.read n).2.2.reads = os.reads.tail := by
    unfold Os.read
    split <;> simp_all
  intro hmem
  rw [htail] at hmem
  exact hok (List.mem_of_mem_tail hmem)

/-- A `read` into an empty buffer leaves `unread` as it was. -/
theorem Served.refill {rp : RioT} {os : Os} (hcnt : rp.rioCnt ≤ 0) (hinv : rp.Inv)
    (hok : os.ReadsOk) (hneg : (rp.refill os).rioCnt ≤ 0) :
    Served rp os [] (rp.refill os) (os.read RIO_BUFSIZE).2.2 := by
  obtain ⟨hwr, hws⟩ := Os.read_written os RIO_BUFSIZE
  have h0 : rp.rioCnt.toNat = 0 := by omega
  have h0' : (rp.refill os).rioCnt.toNat = 0 := by omega
  refine ⟨?_, ?_, Os.read_readsOk hok _, hwr, hws⟩
  · simp only [unread, h0, h0', Cells.load_zero, List.nil_append]
    by_cases hlt : (os.read RIO_BUFSIZE).1 < 0
    · exact (Os.read_neg hlt).2.2.1.symm
    · -- nothing was delivered: the stream was at its end and still is
      obtain ⟨bs, rest, hs, _, hnil, hrc, _, hrest, _⟩ :=
        Os.read_nonneg os (show 0 < RIO_BUFSIZE by decide) (by omega)
      have hbs : bs = [] := by
        have hle : (os.read RIO_BUFSIZE).1 ≤ 0 := hneg
        exact List.length_eq_zero_iff.mp (by omega)
      rw [hrest, hs, hbs, List.nil_append]
  · unfold RioT.Inv at hinv ⊢
    rw [h0']
    show rp.rioBufptr + 0 ≤ _
    omega

/-- A successful `read` into an empty buffer, with the pointer reset. -/
theorem Served.refill_reset {rp : RioT} {os : Os} (hcnt : rp.rioCnt ≤ 0)
    (hok : os.ReadsOk) (hpos : 0 < (rp.refill os).rioCnt) :
    Served rp os [] { rp.refill os with rioBufptr := 0 } (os.read RIO_BUFSIZE).2.2 := by
  obtain ⟨hwr, hws⟩ := Os.read_written os RIO_BUFSIZE
  have h0 : rp.rioCnt.toNat = 0 := by omega
  have hpos' : 0 ≤ (os.read RIO_BUFSIZE).1 := by
    have : 0 < (os.read RIO_BUFSIZE).1 := hpos
    omega
  obtain ⟨bs, rest, hs, hlen, _, hrc, hbs, hrest, _⟩ :=
    Os.read_nonneg os (show 0 < RIO_BUFSIZE by decide) hpos'
  refine ⟨?_, ?_, Os.read_readsOk hok _, hwr, hws⟩
  · show rp.rioBuf.load _ rp.rioCnt.toNat ++ os.stream
      = (rp.rioBuf.store 0 (os.read RIO_BUFSIZE).2.1).load 0 (os.read RIO_BUFSIZE).1.toNat
          ++ (os.read RIO_BUFSIZE).2.2.stream
    rw [h0, hbs, hrc, hrest, Int.toNat_natCast, Cells.load_store_self, hs]
    rfl
  · show 0 + (os.read RIO_BUFSIZE).1.toNat ≤ RIO_BUFSIZE
    rw [hrc, Int.toNat_natCast]
    omega

/-- The refill loop moves bytes from the kernel into the buffer: `unread` is the
same list before and after, and the early return is the one at end of stream. -/
theorem rioFill_spec (rp : RioT) (os : Os) : rp.Inv → os.ReadsOk →
    Served rp os [] (rioFill rp os).2.1 (rioFill rp os).2.2 ∧
      (((rioFill rp os).1 = none ∧ 0 < (rioFill rp os).2.1.rioCnt) ∨
        ((rioFill rp os).1 = some 0 ∧ unread rp os = [])) := by
  induction rp, os using rioFill.induct with
  | case1 rp os hcnt hneg herr =>
      -- the branch `return -1`: excluded, the only failure is `EINTR`
      intro _ hok
      exact absurd ((Os.read_neg hneg).2.2.2.2.2 hok) herr
  | case2 rp os hcnt hneg herr ih =>
      -- `EINTR`: `rio_cnt` is `-1` and the loop goes round again
      intro hinv hok
      have hsame := Served.refill hcnt hinv hok (by omega)
      obtain ⟨hserved, hcase⟩ := ih hsame.inv hsame.readsOk
      rw [rioFill, if_pos hcnt, if_pos hneg, if_neg herr]
      refine ⟨hsame.trans hserved, ?_⟩
      rw [hsame.unread_eq]
      exact hcase
  -- `return 0`: the kernel had nothing left
  | case3 rp os hcnt hneg hzero =>
      intro hinv hok
      have hsame := Served.refill hcnt hinv hok (by omega)
      rw [rioFill, if_pos hcnt, if_neg hneg, if_pos hzero]
      refine ⟨hsame, Or.inr ⟨rfl, ?_⟩⟩
      obtain ⟨bs, rest, hs, _, hnil, hrc, _, _, _⟩ :=
        Os.read_nonneg os (show 0 < RIO_BUFSIZE by decide) (Int.not_lt.mp hneg)
      have hbs : bs = [] := by
        have hz : (os.read RIO_BUFSIZE).1 = 0 := hzero
        exact List.length_eq_zero_iff.mp (by omega)
      have h0 : rp.rioCnt.toNat = 0 := by omega
      rw [unread, h0, hnil hbs]
      rfl
  -- data arrived: the loop condition is tested once more and fails
  | case4 rp os hcnt hneg hzero ih =>
      intro hinv hok
      have hsame := Served.refill_reset hcnt hok (by omega)
      obtain ⟨hserved, hcase⟩ := ih hsame.inv hsame.readsOk
      rw [rioFill, if_pos hcnt, if_neg hneg, if_neg hzero]
      refine ⟨hsame.trans hserved, ?_⟩
      rw [hsame.unread_eq]
      exact hcase
  | case5 rp os hcnt =>
      intro hinv hok
      rw [rioFill, if_neg hcnt]
      exact ⟨Served.refl hinv hok, Or.inl ⟨rfl, by show 0 < rp.rioCnt; omega⟩⟩

/-- **`rio_read`**: it copies a head of the stream, at most `n` bytes, and returns
`0` only at its end. -/
theorem rioRead_spec {rp : RioT} {os : Os} (usrbuf : Cells UInt8) (bufp : ℕ) {n : ℕ}
    (hn : 0 < n) (hinv : rp.Inv) (hok : os.ReadsOk) :
    ∃ bs, Served rp os bs (rioRead rp os usrbuf bufp n).rp (rioRead rp os usrbuf bufp n).os ∧
      (rioRead rp os usrbuf bufp n).rc = bs.length ∧
      (rioRead rp os usrbuf bufp n).buf = usrbuf.store bufp bs ∧
      bs.length ≤ n ∧ (bs = [] → unread rp os = []) := by
  obtain ⟨hserved, hcase⟩ := rioFill_spec rp os hinv hok
  unfold rioRead
  rcases hfill : rioFill rp os with ⟨_ | rc, rp', os'⟩
  · simp only [hfill, true_and, reduceCtorEq, false_and, or_false] at hserved hcase
    -- `cnt` is `min n rio_cnt`; both are at most `RIO_BUFSIZE` when `n` is taken
    have hcap : rp'.rioBufptr + rp'.rioCnt.toNat ≤ 8192 := hserved.inv
    have hcnt : (if rp'.rioCnt.toNat < n then rp'.rioCnt else int32 n)
        = ((min n rp'.rioCnt.toNat : ℕ) : ℤ) := by
      split
      next hlt => omega
      next hge =>
        rw [int32_of_range (by omega) (by omega)]
        omega
    simp only [hcnt, Int.toNat_natCast]
    refine ⟨rp'.rioBuf.load rp'.rioBufptr (min n rp'.rioCnt.toNat), ?_, by simp, rfl,
      by rw [Cells.length_load]; omega, ?_⟩
    · refine ⟨?_, ?_, hserved.readsOk, hserved.written, hserved.writes⟩
      · rw [hserved.unread_eq, List.nil_append]
        simp only [unread]
        rw [← List.append_assoc, ← Cells.load_add]
        congr 2
        omega
      · show rp'.rioBufptr + min n rp'.rioCnt.toNat
            + (rp'.rioCnt - ((min n rp'.rioCnt.toNat : ℕ) : ℤ)).toNat ≤ 8192
        omega
    · intro hnil
      have hlen := congrArg List.length hnil
      simp only [Cells.length_load, List.length_nil] at hlen
      omega
  · simp only [hfill, reduceCtorEq, false_and, false_or, Option.some.injEq] at hserved hcase
    refine ⟨[], hserved, by simp [hcase.1], by simp, by simp, fun _ => hcase.2⟩

/-! ## §6. `rio_readnb` returns the next `min n remaining` bytes. -/

theorem rioReadnbLoop_spec (rp : RioT) (os : Os) (usrbuf : Cells UInt8) (bufp nleft : ℕ) :
    rp.Inv → os.ReadsOk →
    ∃ rp' os', Served rp os ((unread rp os).take nleft) rp' os' ∧
      rioReadnbLoop rp os usrbuf bufp nleft
        = (some (nleft - ((unread rp os).take nleft).length),
            usrbuf.store bufp ((unread rp os).take nleft), rp', os') := by
  induction rp, os, usrbuf, bufp, nleft using rioReadnbLoop.induct with
  | case1 rp os usrbuf bufp nleft hpos r hneg =>
      intro hinv hok
      -- `return -1` is excluded
      obtain ⟨bs, _, hrc, _⟩ := rioRead_spec usrbuf bufp hpos hinv hok
      have : (rioRead rp os usrbuf bufp nleft).rc < 0 := hneg
      omega
  | case2 rp os usrbuf bufp nleft hpos r hneg hzero =>
      intro hinv hok
      -- a count of 0: the stream has ended
      obtain ⟨bs, hserved, hrc, hbuf, hlen, hnil⟩ := rioRead_spec usrbuf bufp hpos hinv hok
      have hz : (rioRead rp os usrbuf bufp nleft).rc = 0 := hzero
      have hbs : bs = [] := List.length_eq_zero_iff.mp (by omega)
      subst hbs
      have hnil := hnil rfl
      refine ⟨r.rp, r.os, by simpa [hnil] using hserved, ?_⟩
      rw [rioReadnbLoop, if_pos hpos]
      simp only [hz, if_true, hbuf, hnil]
      simp [r]
  | case3 rp os usrbuf bufp nleft hpos r hneg hzero ih =>
      intro hinv hok
      -- a chunk: what is left to take is the rest of the head
      obtain ⟨bs, hserved, hrc, hbuf, hlen, hnil⟩ := rioRead_spec usrbuf bufp hpos hinv hok
      obtain ⟨rp', os', hserved', hloop⟩ := ih hserved.inv hserved.readsOk
      have hrc' : r.rc.toNat = bs.length := by
        rw [show r.rc = (bs.length : ℤ) from hrc]
        rfl
      have htake : (unread rp os).take nleft
          = bs ++ (unread r.rp r.os).take (nleft - bs.length) := by
        rw [hserved.unread_eq, List.take_append, List.take_of_length_le hlen]
      rw [hrc'] at hserved' hloop
      refine ⟨rp', os', htake ▸ hserved.trans hserved', ?_⟩
      rw [rioReadnbLoop, if_pos hpos]
      simp only
      rw [if_neg hneg, if_neg hzero, hrc', hloop, htake]
      simp only [List.length_append, Nat.sub_sub, Prod.mk.injEq, and_true, true_and]
      rw [show r.buf = usrbuf.store bufp bs from hbuf, Cells.store_store_append]
  | case4 rp os usrbuf bufp nleft hpos =>
      intro hinv hok
      have h0 : nleft = 0 := by omega
      subst h0
      refine ⟨rp, os, by simpa using Served.refl hinv hok, ?_⟩
      rw [rioReadnbLoop, if_neg hpos]
      simp

/-- **`rio_readnb`**: the next `min n remaining` bytes, into the caller's buffer. -/
theorem rioReadnb_spec {rp : RioT} {os : Os} (usrbuf : Cells UInt8) (n : ℕ)
    (hinv : rp.Inv) (hok : os.ReadsOk) :
    Served rp os ((unread rp os).take n) (rioReadnb rp os usrbuf n).rp
        (rioReadnb rp os usrbuf n).os ∧
      (rioReadnb rp os usrbuf n).rc = ((unread rp os).take n).length ∧
      (rioReadnb rp os usrbuf n).buf = usrbuf.store 0 ((unread rp os).take n) := by
  obtain ⟨rp', os', hserved, hloop⟩ := rioReadnbLoop_spec rp os usrbuf 0 n hinv hok
  have hlen : ((unread rp os).take n).length ≤ n := List.length_take_le _ _
  unfold rioReadnb
  rw [hloop]
  refine ⟨hserved, ?_, rfl⟩
  show (n : ℤ) - ((n - ((unread rp os).take n).length : ℕ) : ℤ) = _
  omega

/-! ## §7. `rio_readlineb` returns the next line. -/

/-- The next bytes up to and including the first newline, but at most `k`. -/
def takeLine : ℕ → List UInt8 → List UInt8
  | 0, _ => []
  | _ + 1, [] => []
  | k + 1, c :: s => if c = 10 then [c] else c :: takeLine k s

/-- The exit the loop takes when `k = maxlen - n` bytes of room are left and the
stream is `s`. -/
def lineExit : ℕ → ℕ → List UInt8 → LineExit
  | n, 0, _ => .full n
  | n, _ + 1, [] => if n = 1 then .eofEmpty else .eofData n
  | n, k + 1, c :: s => if c = 10 then .newline n else lineExit (n + 1) k s

/-- A reader that stores one byte after the other returns here with `MAXLINE`. -/
def LineDone (got : List UInt8) : Prop := got.getLast? = some 10 ∨ got.length = MAXLINE - 1

instance (got : List UInt8) : Decidable (LineDone got) := by
  unfold LineDone
  infer_instance

/-- Reading one byte: `1` and the next byte, or `0` at the end of the stream. -/
theorem rioRead_one {rp : RioT} {os : Os} (c : Cells UInt8) (hinv : rp.Inv) (hok : os.ReadsOk) :
    (unread rp os = [] ∧ (rioRead rp os c 0 1).rc = 0 ∧
      Served rp os [] (rioRead rp os c 0 1).rp (rioRead rp os c 0 1).os) ∨
    (∃ x, (rioRead rp os c 0 1).rc = 1 ∧ (rioRead rp os c 0 1).buf 0 = x ∧
      unread rp os = x :: unread (rioRead rp os c 0 1).rp (rioRead rp os c 0 1).os ∧
      Served rp os [x] (rioRead rp os c 0 1).rp (rioRead rp os c 0 1).os) := by
  obtain ⟨bs, hserved, hrc, hbuf, hlen, hnil⟩ := rioRead_spec c 0 Nat.one_pos hinv hok
  match bs with
  | [] => exact Or.inl ⟨hnil rfl, hrc, hserved⟩
  | [x] =>
      refine Or.inr ⟨x, hrc, ?_, hserved.unread_eq, hserved⟩
      rw [hbuf]
      rfl
  | _ :: _ :: _ => simp at hlen

/-- The loop stores `takeLine` and leaves by `lineExit`, whatever the chunks. -/
theorem lineLoop_spec (maxlen : ℕ) :
    ∀ (k : ℕ) (rp : RioT) (os : Os) (c usrbuf : Cells UInt8) (bufp n : ℕ),
      maxlen - n = k → rp.Inv → os.ReadsOk →
      ∃ rp' os', Served rp os (takeLine k (unread rp os)) rp' os' ∧
        lineLoop rp os c usrbuf bufp n maxlen
          = ⟨lineExit n k (unread rp os), usrbuf.store bufp (takeLine k (unread rp os)),
              bufp + (takeLine k (unread rp os)).length, rp', os'⟩ := by
  intro k
  -- as above, on the room left; `c` and the chunks are arbitrary
  induction k with
  | zero =>
      intro rp os c usrbuf bufp n hk hinv hok
      refine ⟨rp, os, Served.refl hinv hok, ?_⟩
      rw [lineLoop, if_neg (by omega)]
      simp [lineExit, takeLine]
  | succ k ih =>
      intro rp os c usrbuf bufp n hk hinv hok
      rw [lineLoop, if_pos (by omega)]
      simp only
      rcases rioRead_one c hinv hok with ⟨hnil, hrc, hserved⟩ | ⟨x, hrc, hx, hcons, hserved⟩
      · -- end of stream: nothing is stored
        refine ⟨_, _, by simpa [hnil, takeLine] using hserved, ?_⟩
        rw [hrc, if_neg (by decide), if_pos rfl, hnil]
        simp only [lineExit, takeLine]
        split <;> simp
      · rw [hrc, if_pos rfl, hx, hcons]
        simp only [takeLine, lineExit]
        split
        next hnl => exact ⟨_, _, hserved, rfl⟩
        next hnl =>
          -- an ordinary byte: one step of the loop, then the rest by induction
          obtain ⟨rp', os', hserved', hloop⟩ := ih _ _ (rioRead rp os c 0 1).buf
            (usrbuf.store bufp [x]) (bufp + 1) (n + 1) (by omega) hserved.inv hserved.readsOk
          refine ⟨rp', os', hserved.trans hserved', ?_⟩
          rw [hloop, show bufp + 1 = bufp + [x].length from rfl, Cells.store_store_append]
          simp only [List.singleton_append, List.length_cons, List.length_nil, LineRet.mk.injEq,
            true_and, and_true]
          omega

/-- The counter at the exit against the number of bytes stored. -/
theorem lineExit_count : ∀ (k n : ℕ) (s : List UInt8), 1 ≤ n →
    match lineExit n k s with
    | .newline m => m + 1 = n + (takeLine k s).length ∧ (takeLine k s).getLast? = some 10
    | .full m => m = n + (takeLine k s).length ∧ (takeLine k s).length = k ∧ 10 ∉ takeLine k s
    | .eofData m => m = n + (takeLine k s).length ∧ m ≠ 1 ∧ takeLine k s = s ∧ 10 ∉ s
    | .eofEmpty => n = 1 ∧ s = []
    | .error => False := by
  intro k
  induction k with
  | zero => intro n s _; simp [lineExit, takeLine]
  | succ k ih =>
      intro n s hn1
      cases s with
      | nil =>
          -- at the end of the stream the counter tells whether anything was read
          simp only [lineExit, takeLine]
          by_cases hn : n = 1
          · rw [if_pos hn]
            exact ⟨hn, trivial⟩
          · rw [if_neg hn]
            exact ⟨rfl, hn, trivial, List.not_mem_nil⟩
      | cons x s =>
          simp only [lineExit, takeLine]
          -- a newline stops here; any other byte shifts both counters by one
          by_cases hx : x = 10
          · simp [hx]
          · have := ih (n + 1) s (by omega)
            simp only [if_neg hx]
            have hx' : ¬ (10 : UInt8) = x := fun h => hx h.symm
            cases hexit : lineExit (n + 1) k s with
            | newline m =>
                rw [hexit] at this
                obtain ⟨h1, h2⟩ := this
                refine ⟨by rw [List.length_cons]; omega, ?_⟩
                rw [List.getLast?_cons, h2]
                rfl
            | full m =>
                rw [hexit] at this
                obtain ⟨h1, h2, h3⟩ := this
                refine ⟨by rw [List.length_cons]; omega, by rw [List.length_cons]; omega, ?_⟩
                rw [List.mem_cons, not_or]
                exact ⟨hx', h3⟩
            | eofData m =>
                rw [hexit] at this
                obtain ⟨h1, h2, h3, h4⟩ := this
                refine ⟨by rw [List.length_cons]; omega, h2, by rw [h3], ?_⟩
                rw [List.mem_cons, not_or]
                exact ⟨hx', h4⟩
            | eofEmpty =>
                -- impossible: the counter is past `1`
                rw [hexit] at this
                omega
            | error => rw [hexit] at this; exact this

/-- **`rio_readlineb`**: the next line, at most `maxlen - 1` bytes of it, followed
by a NUL; at the end of the stream `0` and the caller's buffer as it was. -/
theorem rioReadlineb_spec {rp : RioT} {os : Os} (usrbuf : Cells UInt8) {maxlen : ℕ}
    (hmax : 2 ≤ maxlen) (hinv : rp.Inv) (hok : os.ReadsOk) :
    Served rp os (takeLine (maxlen - 1) (unread rp os)) (rioReadlineb rp os usrbuf maxlen).rp
        (rioReadlineb rp os usrbuf maxlen).os ∧
      (rioReadlineb rp os usrbuf maxlen).rc = (takeLine (maxlen - 1) (unread rp os)).length ∧
      (rioReadlineb rp os usrbuf maxlen).buf
        = if unread rp os = [] then usrbuf
          else usrbuf.store 0 (takeLine (maxlen - 1) (unread rp os) ++ [0]) := by
  obtain ⟨rp', os', hserved, hloop⟩ := lineLoop_spec maxlen (maxlen - 1) rp os (fun _ => 0)
    usrbuf 0 1 rfl hinv hok
  have hcount := lineExit_count (maxlen - 1) 1 (unread rp os) (Nat.le_refl 1)
  -- there is room for at least one byte
  obtain ⟨j, hj⟩ : ∃ j, maxlen - 1 = j + 1 := ⟨maxlen - 2, by omega⟩
  set line := takeLine (maxlen - 1) (unread rp os) with hline
  have hnil : unread rp os = [] ↔ line = [] := by
    rw [hline, hj]
    constructor
    · intro h
      rw [h]
      rfl
    · intro h
      cases hs : unread rp os with
      | nil => rfl
      | cons x s =>
          rw [hs] at h
          simp only [takeLine] at h
          split at h <;> simp at h
  unfold rioReadlineb
  simp only [hloop]
  -- the three exits with data share the final NUL
  have hstore : line ≠ [] → (usrbuf.store 0 line).store (0 + line.length) [0] =
      if unread rp os = [] then usrbuf else usrbuf.store 0 (line ++ [0]) := by
    intro hne
    rw [if_neg (fun h => hne (hnil.mp h))]
    exact Cells.store_store_append _ _ _ _
  cases hexit : lineExit 1 (maxlen - 1) (unread rp os) with
  | newline m =>
      rw [hexit] at hcount
      refine ⟨hserved, ?_, hstore ?_⟩
      · show ((m + 1 : ℕ) : ℤ) - 1 = line.length
        omega
      · intro h
        simp [h] at hcount
  | full m =>
      rw [hexit] at hcount
      refine ⟨hserved, ?_, hstore ?_⟩
      · show (m : ℤ) - 1 = line.length
        omega
      · intro h
        simp only [h, List.length_nil] at hcount
        omega
  | eofData m =>
      rw [hexit] at hcount
      refine ⟨hserved, ?_, hstore ?_⟩
      · show (m : ℤ) - 1 = line.length
        omega
      · intro h
        simp only [h, List.length_nil] at hcount
        omega
  | eofEmpty =>
      rw [hexit] at hcount
      have hl : line = [] := hnil.mp hcount.2
      refine ⟨hserved, by simp [hl], ?_⟩
      simp [hcount.2, hl]
  | error =>
      rw [hexit] at hcount
      exact hcount.elim

/-! ## §8. Mixed sequences of calls on one `rio_t`. -/

/-- One call, with the buffer the caller passes. -/
inductive Call where
  | readnb (n : ℕ) (buf : Cells UInt8)
  | readlineb (maxlen : ℕ) (buf : Cells UInt8)

/-- The calls considered: `maxlen` fits the `int` counter of `rio_readlineb`. -/
def Call.Ok : Call → Prop
  | .readnb _ _ => True
  | .readlineb maxlen _ => 2 ≤ maxlen ∧ maxlen ≤ INT_MAX

/-- The call, made on `rp`. -/
def Call.run (rp : RioT) (os : Os) : Call → IoRet
  | .readnb n buf => rioReadnb rp os buf n
  | .readlineb maxlen buf => rioReadlineb rp os buf maxlen

/-- Return values and buffers of a sequence of calls on one `rio_t`. -/
def runCalls (rp : RioT) (os : Os) : List Call → List (ℤ × Cells UInt8)
  | [] => []
  | call :: calls =>
      let r := call.run rp os
      (r.rc, r.buf) :: runCalls r.rp r.os calls

/-- The bytes the call is owed by the stream. -/
def Call.due (s : List UInt8) : Call → List UInt8
  | .readnb n _ => s.take n
  | .readlineb maxlen _ => takeLine (maxlen - 1) s

/-- The buffer the call owes: a line is followed by a NUL, and left untouched when
there is none. -/
def Call.dueBuf (s : List UInt8) : Call → Cells UInt8
  | .readnb n buf => buf.store 0 (s.take n)
  | .readlineb maxlen buf => if s = [] then buf else buf.store 0 (takeLine (maxlen - 1) s ++ [0])

/-- What the stream alone dictates. -/
def dictated (s : List UInt8) : List Call → List (ℤ × Cells UInt8)
  | [] => []
  | call :: calls =>
      (((call.due s).length : ℤ), call.dueBuf s) :: dictated (s.drop (call.due s).length) calls

/-- One call takes its due off the stream. -/
theorem Call.run_spec {rp : RioT} {os : Os} (call : Call) (hcall : call.Ok)
    (hinv : rp.Inv) (hok : os.ReadsOk) :
    Served rp os (call.due (unread rp os)) (call.run rp os).rp (call.run rp os).os ∧
      (call.run rp os).rc = (call.due (unread rp os)).length ∧
      (call.run rp os).buf = call.dueBuf (unread rp os) := by
  cases call with
  | readnb n buf => exact rioReadnb_spec buf n hinv hok
  | readlineb maxlen buf => exact rioReadlineb_spec buf hcall.1 hinv hok

/-- The run lemma: any sequence of calls, from any state of the buffer. -/
theorem runCalls_eq (calls : List Call) : ∀ (rp : RioT) (os : Os), rp.Inv → os.ReadsOk →
    (∀ call ∈ calls, call.Ok) → runCalls rp os calls = dictated (unread rp os) calls := by
  induction calls with
  | nil => intro rp os _ _ _; rfl
  | cons call calls ih =>
      intro rp os hinv hok hcalls
      obtain ⟨hserved, hrc, hbuf⟩ :=
        call.run_spec (hcalls call List.mem_cons_self) hinv hok
      -- the next call finds the stream without this call's bytes
      have hrest : (unread rp os).drop (call.due (unread rp os)).length
          = unread (call.run rp os).rp (call.run rp os).os := by
        have h := congrArg (List.drop (call.due (unread rp os)).length) hserved.unread_eq
        rw [List.drop_left] at h
        exact h
      show (_, _) :: runCalls _ _ calls = _
      rw [ih _ _ hserved.inv hserved.readsOk (fun c hc => hcalls c (List.mem_cons_of_mem _ hc)),
        hrc, hbuf, dictated, hrest]

/-- **Every sequence of `rio_readnb` and `rio_readlineb` calls returns what the
stream alone dictates**, for every chunking and every placement of `EINTR`. -/
theorem runCalls_eq_dictated (rp : RioT) (os : Os) (calls : List Call)
    (hok : os.ReadsOk) (hcalls : ∀ call ∈ calls, call.Ok) :
    runCalls (rioReadinitb rp) os calls = dictated os.stream calls := by
  have hinv : (rioReadinitb rp).Inv := by
    show 0 + 0 ≤ RIO_BUFSIZE
    exact Nat.zero_le _
  exact runCalls_eq calls (rioReadinitb rp) os hinv hok hcalls

/-- `"ab\ncd"` arriving as `EINTR`, two bytes, `EINTR`, one byte and the rest. -/
def choppedOs : Os :=
  ⟨[97, 98, 10, 99, 100], [.eintr, .data 1, .eintr, .data 0], [], [], .none⟩

/-- A line, then up to ten bytes, then a line at the end of the stream. -/
theorem runCalls_choppedOs :
    choppedOs.ReadsOk ∧
    runCalls (rioReadinitb ⟨7, 5, fun _ => 1⟩) choppedOs
        [.readlineb 80 (fun _ => 1), .readnb 10 (fun _ => 1), .readlineb 80 (fun _ => 1)]
      = dictated [97, 98, 10, 99, 100]
        [.readlineb 80 (fun _ => 1), .readnb 10 (fun _ => 1), .readlineb 80 (fun _ => 1)] :=
  ⟨by unfold Os.ReadsOk; decide,
    runCalls_eq_dictated _ choppedOs _ (by unfold Os.ReadsOk; decide) (by
      intro call hcall
      simp only [List.mem_cons, List.not_mem_nil, or_false] at hcall
      rcases hcall with h | h | h <;> subst h
      · exact ⟨by decide, by decide⟩
      · trivial
      · exact ⟨by decide, by decide⟩)⟩

end ComputerScience.Rio
