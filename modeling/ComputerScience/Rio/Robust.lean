/-
  ComputerScience.Rio.Robust
  ──────────────────────────
  **UNBUFFERED ROBUST I/O UNDER ANY KERNEL** (`rio_readn` and `rio_writen` in
  `22-netprog2/csapp.c`).

  `read` and `write` are parameters: any type of kernel states and any two functions on it
  that keep to what POSIX says of one call.  A call may transfer less than it was asked for,
  fail, be interrupted, report the end of the file or, in the case of `write`, accept nothing
  at all, in any order and for ever; what a call that succeeds does to `errno` is left open.

  The arithmetic is that of the code: `nleft` is a `size_t` from which the `ssize_t` of a
  system call is subtracted, and the results are converted to `ssize_t`.

  Main results:
    • `writenTurn_cases`, `readnTurn_cases` — what one turn of the loops can do,
    • `WritenInv.next`, `ReadnInv.next` — a turn keeps pointer and count in step,
    • `rioWriten_accepted`, `rioReadn_delivered` — what the two functions have done if they
      return,
    • `rioWriten_returns`, `rioReadn_returns` — they return if the interruptions end,
    • `robust_transfers` — both functions,
    • `rioWriten_os` — the kernel of `Rio.Posix` is one of these kernels, and the code on it
      is the `rio_writen` of `Rio.Unbuffered`.
-/
import ComputerScience.Lib.While
import ComputerScience.Lib.Word
import ComputerScience.Rio.Unbuffered

namespace ComputerScience.Rio

open ComputerScience.Lib

variable {K : Type}

/-! ## §1. System calls. -/

/-- The system calls on a descriptor, with kernel states `K`. -/
structure Syscalls (K : Type) where
  errno : K → Errno
  /-- `read(fd, buf, n)`: the return value, the bytes put into `buf`, the kernel afterwards. -/
  read : K → ℕ → ℤ × List UInt8 × K
  /-- `write(fd, buf, n)` where the `n` bytes at `buf` are given. -/
  write : K → List UInt8 → ℤ × K

/-- What POSIX says of a `read` of `n` bytes from state `k` to `k'`.  `stream k i` is byte `i`
of what is still to be read, `none` from the end of the file on. -/
structure ReadLaw (stream : K → ℕ → Option UInt8) (k : K) (n : ℕ) (nread : ℤ)
    (bytes : List UInt8) (k' : K) (errno : Errno) : Prop where
  count : nread ≤ n
  /-- Nothing is put behind the `n` bytes of the buffer. -/
  stores : bytes.length ≤ n
  filled : nread.toNat ≤ bytes.length
  /-- What was read is the beginning of the stream; more of the buffer may be overwritten. -/
  data : ∀ i < nread.toNat, bytes[i]? = stream k i
  /-- The next call goes on behind it.  A call that was interrupted has read nothing; after
  another error, and after the end of the file, the stream is not specified. -/
  next : 0 < nread ∨ nread < 0 ∧ errno = .eintr → ∀ i, stream k' i = stream k (nread.toNat + i)
  eof : nread = 0 → stream k 0 = none

/-- What POSIX says of a `write` of the bytes `bs`.  `accepted k` is what the descriptor has
accepted so far; a call that fails has written nothing. -/
structure WriteLaw (accepted : K → List UInt8) (k : K) (bs : List UInt8) (nwritten : ℤ)
    (k' : K) : Prop where
  count : nwritten ≤ bs.length
  data : accepted k' = accepted k ++ bs.take nwritten.toNat

/-- A descriptor: system calls that keep to these rules. -/
structure Descriptor (K : Type) extends Syscalls K where
  stream : K → ℕ → Option UInt8
  accepted : K → List UInt8
  read_law : ∀ k n, 0 < n →
    ReadLaw stream k n (read k n).1 (read k n).2.1 (read k n).2.2 (errno (read k n).2.2)
  write_law : ∀ k bs, bs ≠ [] → WriteLaw accepted k bs (write k bs).1 (write k bs).2

/-- The calls that bring nothing come to an end: each of them uses up some of `μ`. -/
structure Syscalls.Settles (sys : Syscalls K) (μ : K → ℕ) : Prop where
  read_le : ∀ k n, 0 < n → μ (sys.read k n).2.2 ≤ μ k
  read_lt : ∀ k n, 0 < n → (sys.read k n).1 < 0 → μ (sys.read k n).2.2 < μ k
  write_le : ∀ k bs, bs ≠ [] → μ (sys.write k bs).2 ≤ μ k
  write_lt : ∀ k bs, bs ≠ [] → (sys.write k bs).1 ≤ 0 → μ (sys.write k bs).2 < μ k

/-! ## §2. The code. -/

/-- The variables of the two functions; `bufp` is an offset into `usrbuf`. -/
structure Transfer (K : Type) where
  kernel : K
  usrbuf : Cells UInt8
  bufp : ℕ
  nleft : ℕ

/-- `nleft -= moved; bufp += moved;` -/
def Transfer.advance (v : Transfer K) (moved : ℤ) : Transfer K :=
  { v with bufp := v.bufp + moved.toNat, nleft := sizeT (v.nleft - moved) }

/-- The loop of `rio_readn`: the test, a turn, and the `return` behind the loop. -/
def Syscalls.readnTurn (sys : Syscalls K) (n : ℕ) (v : Transfer K) :
    Transfer K ⊕ (ℤ × Transfer K) :=
  if 0 < v.nleft then
    let call := sys.read v.kernel v.nleft
    let nread := call.1
    let v := { v with usrbuf := v.usrbuf.store v.bufp call.2.1, kernel := call.2.2 }
    if nread < 0 then
      if sys.errno v.kernel = .eintr then .inl (v.advance 0) else .inr (-1, v)
    -- `break`
    else if nread = 0 then .inr (ssizeT (sizeT (n - v.nleft)), v)
    else .inl (v.advance nread)
  else .inr (ssizeT (sizeT (n - v.nleft)), v)

/-- `rio_readn(fd, usrbuf, n)`: the return value and the variables at the end. -/
def Syscalls.rioReadn (sys : Syscalls K) (fuel : ℕ) (k : K) (usrbuf : Cells UInt8) (n : ℕ) :
    Option (ℤ × Transfer K) :=
  loopExit (sys.readnTurn n) fuel ⟨k, usrbuf, 0, n⟩

/-- The loop of `rio_writen`. -/
def Syscalls.writenTurn (sys : Syscalls K) (n : ℕ) (v : Transfer K) :
    Transfer K ⊕ (ℤ × Transfer K) :=
  if 0 < v.nleft then
    let call := sys.write v.kernel (v.usrbuf.load v.bufp v.nleft)
    let nwritten := call.1
    let v := { v with kernel := call.2 }
    if nwritten ≤ 0 then
      -- nothing has set `errno` if `write` returned zero
      if sys.errno v.kernel = .eintr then .inl (v.advance 0) else .inr (-1, v)
    else .inl (v.advance nwritten)
  else .inr (ssizeT n, v)

/-- `rio_writen(fd, usrbuf, n)` -/
def Syscalls.rioWriten (sys : Syscalls K) (fuel : ℕ) (k : K) (usrbuf : Cells UInt8) (n : ℕ) :
    Option (ℤ × Transfer K) :=
  loopExit (sys.writenTurn n) fuel ⟨k, usrbuf, 0, n⟩

/-! ## §3. One turn of `rio_writen`. -/

/-- The subtraction from `nleft` does not wrap. -/
theorem Transfer.advance_eq (k : K) (buf : Cells UInt8) (bufp : ℕ) {nleft : ℕ} {moved : ℤ}
    (h0 : 0 ≤ moved) (hle : moved ≤ nleft) (hsize : nleft < 2 ^ 63) :
    Transfer.advance ⟨k, buf, bufp, nleft⟩ moved =
      ⟨k, buf, bufp + moved.toNat, nleft - moved.toNat⟩ := by
  have hnleft : sizeT (nleft - moved) = nleft - moved.toNat := by
    rw [sizeT_of_range (by omega) (by omega)]
    omega
  unfold Transfer.advance
  rw [hnleft]

variable {d : Descriptor K} {k : K} {buf : Cells UInt8} {n : ℕ} {v : Transfer K}

/-- **What a turn of `rio_writen` can do**: accept some of the buffer (nothing only if the
call was interrupted), give up, or find that all is written. -/
theorem writenTurn_cases (d : Descriptor K) (n : ℕ) (hsize : v.nleft < 2 ^ 63) :
    (∃ k' moved, d.writenTurn n v = .inl ⟨k', v.usrbuf, v.bufp + moved, v.nleft - moved⟩ ∧
      moved ≤ v.nleft ∧ d.accepted k' = d.accepted v.kernel ++ v.usrbuf.load v.bufp moved ∧
      ∀ μ, d.Settles μ → μ k' ≤ μ v.kernel ∧ (moved = 0 → μ k' < μ v.kernel)) ∨
    (∃ k', d.writenTurn n v = .inr (-1, { v with kernel := k' }) ∧
      d.accepted k' = d.accepted v.kernel ∧ 0 < v.nleft) ∨
    (d.writenTurn n v = .inr (ssizeT n, v) ∧ v.nleft = 0) := by
  unfold Syscalls.writenTurn
  by_cases hpos : 0 < v.nleft
  · rw [if_pos hpos]
    have hne := v.usrbuf.load_ne_nil v.bufp hpos
    obtain ⟨hcount, hdata⟩ := d.write_law v.kernel _ hne
    rw [Cells.length_load] at hcount
    have hle : ∀ μ, d.Settles μ → μ (d.write v.kernel (v.usrbuf.load v.bufp v.nleft)).2 ≤
        μ v.kernel := fun μ hμ => hμ.write_le _ _ hne
    have hlt : ∀ μ, d.Settles μ → (d.write v.kernel (v.usrbuf.load v.bufp v.nleft)).1 ≤ 0 →
        μ (d.write v.kernel (v.usrbuf.load v.bufp v.nleft)).2 < μ v.kernel :=
      fun μ hμ => hμ.write_lt _ _ hne
    generalize d.write v.kernel (v.usrbuf.load v.bufp v.nleft) = call at *
    obtain ⟨nwritten, k'⟩ := call
    dsimp only at hcount hdata hle hlt ⊢
    rw [Cells.take_load _ _ (by omega)] at hdata
    by_cases hrc : nwritten ≤ 0
    · rw [show nwritten.toNat = 0 by omega] at hdata
      rw [if_pos hrc]
      by_cases herr : d.errno k' = .eintr
      · left
        rw [if_pos herr]
        refine ⟨k', 0, congrArg Sum.inl ?_, Nat.zero_le _, hdata, ?_⟩
        · exact Transfer.advance_eq k' v.usrbuf v.bufp (Int.le_refl 0) (by omega) hsize
        · exact fun μ hμ => ⟨hle μ hμ, fun _ => hlt μ hμ hrc⟩
      · right
        left
        rw [if_neg herr]
        exact ⟨k', rfl, by rw [hdata]; simp, hpos⟩
    · left
      rw [if_neg hrc]
      refine ⟨k', nwritten.toNat, congrArg Sum.inl ?_, by omega, hdata, ?_⟩
      · exact Transfer.advance_eq k' v.usrbuf v.bufp (by omega) hcount hsize
      · exact fun μ hμ => ⟨hle μ hμ, by omega⟩
  · right
    right
    rw [if_neg hpos]
    exact ⟨rfl, by omega⟩

/-- What was written so far is the beginning of the buffer. -/
structure WritenInv (d : Descriptor K) (k : K) (buf : Cells UInt8) (n : ℕ) (v : Transfer K) :
    Prop where
  usrbuf : v.usrbuf = buf
  place : v.bufp + v.nleft = n
  accepted : d.accepted v.kernel = d.accepted k ++ buf.load 0 v.bufp

theorem WritenInv.start (d : Descriptor K) (k : K) (buf : Cells UInt8) (n : ℕ) :
    WritenInv d k buf n ⟨k, buf, 0, n⟩ := by
  refine ⟨rfl, Nat.zero_add n, ?_⟩
  rw [Cells.load_zero, List.append_nil]

/-- What `rio_writen` has done when it returns `r`. -/
def Written (d : Descriptor K) (k : K) (buf : Cells UInt8) (n : ℕ) (r : ℤ × Transfer K) : Prop :=
  (r.1 = n ∧ d.accepted r.2.kernel = d.accepted k ++ buf.load 0 n) ∨
  (r.1 = -1 ∧ ∃ j < n, d.accepted r.2.kernel = d.accepted k ++ buf.load 0 j)

/-- **A turn that goes on** keeps the invariant. -/
theorem WritenInv.next (h : WritenInv d k buf n v) (hn : n < 2 ^ 63) {v' : Transfer K}
    (hturn : d.writenTurn n v = .inl v') :
    WritenInv d k buf n v' ∧
      ∀ μ, d.Settles μ → μ v'.kernel + v'.nleft < μ v.kernel + v.nleft := by
  have hplace := h.place
  rcases writenTurn_cases d n (v := v) (by omega) with
    ⟨k', moved, heq, hle, hacc, hμ⟩ | ⟨k', heq, -⟩ | ⟨heq, -⟩
  · rw [heq] at hturn
    cases hturn
    refine ⟨⟨h.usrbuf, ?_, ?_⟩, ?_⟩
    · show v.bufp + moved + (v.nleft - moved) = n
      omega
    · show d.accepted k' = d.accepted k ++ buf.load 0 (v.bufp + moved)
      rw [hacc, h.accepted, h.usrbuf, Cells.load_add, Nat.zero_add, List.append_assoc]
    · intro μ hs
      obtain ⟨hmono, hstall⟩ := hμ μ hs
      show μ k' + (v.nleft - moved) < μ v.kernel + v.nleft
      omega
  · rw [heq] at hturn
    cases hturn
  · rw [heq] at hturn
    cases hturn

/-- **A turn that returns**. -/
theorem WritenInv.exit (h : WritenInv d k buf n v) (hn : n < 2 ^ 63) {r : ℤ × Transfer K}
    (hturn : d.writenTurn n v = .inr r) : Written d k buf n r := by
  have hplace := h.place
  rcases writenTurn_cases d n (v := v) (by omega) with
    ⟨k', moved, heq, -⟩ | ⟨k', heq, hacc, hpos⟩ | ⟨heq, hzero⟩
  · rw [heq] at hturn
    cases hturn
  · rw [heq] at hturn
    cases hturn
    refine Or.inr ⟨rfl, v.bufp, by omega, ?_⟩
    rw [← h.accepted]
    exact hacc
  · rw [heq] at hturn
    obtain rfl := Sum.inr.inj hturn
    unfold Written
    dsimp only
    rw [h.accepted, ssizeT_natCast hn, show v.bufp = n by omega]
    exact Or.inl ⟨rfl, rfl⟩

/-! ## §4. One turn of `rio_readn`. -/

/-- **What a turn of `rio_readn` can do**: read some of the stream (nothing only if the call
was interrupted), give up, find the end of the file, or find that all is read. -/
theorem readnTurn_cases (d : Descriptor K) (n : ℕ) (hsize : v.nleft < 2 ^ 63) :
    (∃ k' bytes moved, d.readnTurn n v =
        .inl ⟨k', v.usrbuf.store v.bufp bytes, v.bufp + moved, v.nleft - moved⟩ ∧
      bytes.length ≤ v.nleft ∧ moved ≤ bytes.length ∧
      (∀ i < moved, bytes[i]? = d.stream v.kernel i) ∧
      (∀ i, d.stream k' i = d.stream v.kernel (moved + i)) ∧
      ∀ μ, d.Settles μ → μ k' ≤ μ v.kernel ∧ (moved = 0 → μ k' < μ v.kernel)) ∨
    (∃ k' bytes, d.readnTurn n v =
        .inr (-1, { v with kernel := k', usrbuf := v.usrbuf.store v.bufp bytes }) ∧
      bytes.length ≤ v.nleft) ∨
    (∃ k' bytes, d.readnTurn n v = .inr (ssizeT (sizeT (n - v.nleft)),
        { v with kernel := k', usrbuf := v.usrbuf.store v.bufp bytes }) ∧
      bytes.length ≤ v.nleft ∧ d.stream v.kernel 0 = none ∧ 0 < v.nleft) ∨
    (d.readnTurn n v = .inr (ssizeT (sizeT (n - v.nleft)), v) ∧ v.nleft = 0) := by
  unfold Syscalls.readnTurn
  by_cases hpos : 0 < v.nleft
  · rw [if_pos hpos]
    obtain ⟨hcount, hstores, hfilled, hdata, hnext, heof⟩ := d.read_law v.kernel v.nleft hpos
    have hle : ∀ μ, d.Settles μ → μ (d.read v.kernel v.nleft).2.2 ≤ μ v.kernel :=
      fun μ hμ => hμ.read_le _ _ hpos
    have hlt : ∀ μ, d.Settles μ → (d.read v.kernel v.nleft).1 < 0 →
        μ (d.read v.kernel v.nleft).2.2 < μ v.kernel :=
      fun μ hμ => hμ.read_lt _ _ hpos
    generalize d.read v.kernel v.nleft = call at *
    obtain ⟨nread, bytes, k'⟩ := call
    dsimp only at hcount hstores hfilled hdata hnext heof hle hlt ⊢
    by_cases hneg : nread < 0
    · rw [if_pos hneg]
      by_cases herr : d.errno k' = .eintr
      · left
        rw [if_pos herr]
        have hsame := hnext (Or.inr ⟨hneg, herr⟩)
        rw [show nread.toNat = 0 by omega] at hsame
        refine ⟨k', bytes, 0, congrArg Sum.inl ?_, hstores, Nat.zero_le _, by omega, hsame, ?_⟩
        · exact Transfer.advance_eq k' _ v.bufp (Int.le_refl 0) (by omega) hsize
        · exact fun μ hμ => ⟨hle μ hμ, fun _ => hlt μ hμ hneg⟩
      · right
        left
        rw [if_neg herr]
        exact ⟨k', bytes, rfl, hstores⟩
    · rw [if_neg hneg]
      by_cases hzero : nread = 0
      · right
        right
        left
        rw [if_pos hzero]
        exact ⟨k', bytes, rfl, hstores, heof hzero, hpos⟩
      · left
        rw [if_neg hzero]
        have hgot : 0 < nread := by omega
        refine ⟨k', bytes, nread.toNat, congrArg Sum.inl ?_, hstores, hfilled, hdata,
          hnext (Or.inl hgot), ?_⟩
        · exact Transfer.advance_eq k' _ v.bufp (by omega) hcount hsize
        · exact fun μ hμ => ⟨hle μ hμ, by omega⟩
  · right
    right
    right
    rw [if_neg hpos]
    exact ⟨rfl, by omega⟩

/-- What was read so far is the beginning of the stream, and the rest is still to come. -/
structure ReadnInv (d : Descriptor K) (k : K) (buf : Cells UInt8) (n : ℕ) (v : Transfer K) :
    Prop where
  place : v.bufp + v.nleft = n
  data : ∀ i < v.bufp, d.stream k i = some (v.usrbuf i)
  rest : ∀ i, d.stream v.kernel i = d.stream k (v.bufp + i)
  /-- The memory behind the buffer is untouched. -/
  kept : ∀ i, n ≤ i → v.usrbuf i = buf i

theorem ReadnInv.start (d : Descriptor K) (k : K) (buf : Cells UInt8) (n : ℕ) :
    ReadnInv d k buf n ⟨k, buf, 0, n⟩ := by
  refine ⟨Nat.zero_add n, ?_, ?_, fun _ _ => rfl⟩
  · intro i hi
    cases hi
  · intro i
    show d.stream k i = d.stream k (0 + i)
    rw [Nat.zero_add]

/-- A call that puts `bytes` into the rest of the buffer. -/
theorem ReadnInv.stored (h : ReadnInv d k buf n v) {bytes : List UInt8}
    (hstores : bytes.length ≤ v.nleft) :
    (∀ i < v.bufp, d.stream k i = some (v.usrbuf.store v.bufp bytes i)) ∧
      ∀ i, n ≤ i → v.usrbuf.store v.bufp bytes i = buf i := by
  have hplace := h.place
  constructor
  · intro i hi
    rw [Cells.store_apply_of_not_mem _ (Or.inl hi)]
    exact h.data i hi
  · intro i hi
    rw [Cells.store_apply_of_not_mem _ (Or.inr (by omega))]
    exact h.kept i hi

/-- What `rio_readn` has done when it returns `r`: it has failed, or it has read the first
`j` bytes of the stream, all that was asked for or all there is. -/
def Delivered (d : Descriptor K) (k : K) (buf : Cells UInt8) (n : ℕ) (r : ℤ × Transfer K) :
    Prop :=
  (r.1 = -1 ∨ ∃ j ≤ n, r.1 = j ∧ (∀ i < j, d.stream k i = some (r.2.usrbuf i)) ∧
    (j < n → d.stream k j = none) ∧
    (j = n → ∀ i, d.stream r.2.kernel i = d.stream k (n + i))) ∧
  ∀ i, n ≤ i → r.2.usrbuf i = buf i

/-- **A turn that goes on** keeps the invariant. -/
theorem ReadnInv.next (h : ReadnInv d k buf n v) (hn : n < 2 ^ 63) {v' : Transfer K}
    (hturn : d.readnTurn n v = .inl v') :
    ReadnInv d k buf n v' ∧
      ∀ μ, d.Settles μ → μ v'.kernel + v'.nleft < μ v.kernel + v.nleft := by
  have hplace := h.place
  rcases readnTurn_cases d n (v := v) (by omega) with
    ⟨k', bytes, moved, heq, hstores, hfilled, hdata, hrest, hμ⟩ | ⟨k', bytes, heq, -⟩ |
    ⟨k', bytes, heq, -⟩ | ⟨heq, -⟩
  · rw [heq] at hturn
    cases hturn
    obtain ⟨hold, hkept⟩ := h.stored hstores
    refine ⟨⟨?_, ?_, ?_, hkept⟩, ?_⟩
    · show v.bufp + moved + (v.nleft - moved) = n
      omega
    · intro i hi
      show d.stream k i = some (v.usrbuf.store v.bufp bytes i)
      by_cases hlt : i < v.bufp
      · exact hold i hlt
      · -- a byte of this call
        obtain ⟨j, rfl⟩ : ∃ j, i = v.bufp + j := ⟨i - v.bufp, by omega⟩
        have hj : j < moved := Nat.lt_of_add_lt_add_left hi
        have hlen : j < bytes.length := by omega
        rw [← h.rest, ← hdata j hj, Cells.store_apply_of_mem _ hlen, List.getElem?_eq_getElem hlen]
    · intro i
      show d.stream k' i = d.stream k (v.bufp + moved + i)
      rw [hrest, h.rest, Nat.add_assoc]
    · intro μ hs
      obtain ⟨hmono, hstall⟩ := hμ μ hs
      show μ k' + (v.nleft - moved) < μ v.kernel + v.nleft
      omega
  · rw [heq] at hturn
    cases hturn
  · rw [heq] at hturn
    cases hturn
  · rw [heq] at hturn
    cases hturn

/-- **A turn that returns**. -/
theorem ReadnInv.exit (h : ReadnInv d k buf n v) (hn : n < 2 ^ 63) {r : ℤ × Transfer K}
    (hturn : d.readnTurn n v = .inr r) : Delivered d k buf n r := by
  have hplace := h.place
  have hret : ssizeT (sizeT (n - v.nleft)) = v.bufp := by
    rw [show (n : ℤ) - v.nleft = (v.bufp : ℕ) by omega, sizeT_natCast (by omega),
      ssizeT_natCast (by omega)]
  rcases readnTurn_cases d n (v := v) (by omega) with
    ⟨k', bytes, moved, heq, -⟩ | ⟨k', bytes, heq, hstores⟩ |
    ⟨k', bytes, heq, hstores, heof, hpos⟩ | ⟨heq, hzero⟩
  · rw [heq] at hturn
    cases hturn
  · rw [heq] at hturn
    obtain rfl := Sum.inr.inj hturn
    exact ⟨Or.inl rfl, (h.stored hstores).2⟩
  · rw [heq, hret] at hturn
    obtain rfl := Sum.inr.inj hturn
    obtain ⟨hold, hkept⟩ := h.stored hstores
    rw [h.rest, Nat.add_zero] at heof
    exact ⟨Or.inr ⟨v.bufp, by omega, rfl, hold, fun _ => heof, by omega⟩, hkept⟩
  · rw [heq, hret] at hturn
    obtain rfl := Sum.inr.inj hturn
    refine ⟨Or.inr ⟨v.bufp, by omega, rfl, h.data, by omega, ?_⟩, h.kept⟩
    intro hall i
    rw [← hall]
    exact h.rest i

/-! ## §5. Whole calls. -/

/-- **`rio_writen`, if it returns**: all of the buffer was accepted, or less. -/
theorem rioWriten_accepted (hn : n < 2 ^ 63) {fuel : ℕ} {r : ℤ × Transfer K}
    (hrun : d.rioWriten fuel k buf n = some r) : Written d k buf n r :=
  loopExit_partial (fun _ _ h hturn => (WritenInv.next h hn hturn).1)
    (fun _ _ h hturn => WritenInv.exit h hn hturn) (WritenInv.start d k buf n) hrun

/-- **`rio_readn`, if it returns.** -/
theorem rioReadn_delivered (hn : n < 2 ^ 63) {fuel : ℕ} {r : ℤ × Transfer K}
    (hrun : d.rioReadn fuel k buf n = some r) : Delivered d k buf n r :=
  loopExit_partial (fun _ _ h hturn => (ReadnInv.next h hn hturn).1)
    (fun _ _ h hturn => ReadnInv.exit h hn hturn) (ReadnInv.start d k buf n) hrun

/-- `rio_writen` returns if the interruptions end. -/
theorem rioWriten_returns (k : K) (buf : Cells UInt8) (hn : n < 2 ^ 63) {μ : K → ℕ}
    (hμ : d.Settles μ) {fuel : ℕ} (hfuel : μ k + n < fuel) :
    ∃ r, d.rioWriten fuel k buf n = some r := by
  refine loopExit_returns (fun v => μ v.kernel + v.nleft) ?_ (WritenInv.start d k buf n) hfuel
  intro v v' h hturn
  obtain ⟨h', hlt⟩ := h.next hn hturn
  exact ⟨h', hlt μ hμ⟩

/-- `rio_readn` returns if the interruptions end. -/
theorem rioReadn_returns (k : K) (buf : Cells UInt8) (hn : n < 2 ^ 63) {μ : K → ℕ}
    (hμ : d.Settles μ) {fuel : ℕ} (hfuel : μ k + n < fuel) :
    ∃ r, d.rioReadn fuel k buf n = some r := by
  refine loopExit_returns (fun v => μ v.kernel + v.nleft) ?_ (ReadnInv.start d k buf n) hfuel
  intro v v' h hturn
  obtain ⟨h', hlt⟩ := h.next hn hturn
  exact ⟨h', hlt μ hμ⟩

/-! ## §6. The kernel of `Rio.Posix`. -/

theorem Os.read_law (os : Os) {n : ℕ} (hn : 0 < n) :
    ReadLaw (fun os i => os.stream[i]?) os n (os.read n).1 (os.read n).2.1 (os.read n).2.2
      (os.read n).2.2.errno := by
  by_cases hneg : (os.read n).1 < 0
  · obtain ⟨hrc, hbytes, hstream, -⟩ := Os.read_neg hneg
    rw [hrc, hbytes]
    refine ⟨by omega, Nat.zero_le _, Nat.zero_le _, nofun, ?_, by omega⟩
    intro _ i
    show (os.read n).2.2.stream[i]? = os.stream[0 + i]?
    rw [hstream, Nat.zero_add]
  · obtain ⟨bs, rest, hstream, hlen, heof, hrc, hbytes, hrest, -⟩ :=
      Os.read_nonneg os hn (by omega)
    rw [hrc, hbytes]
    refine ⟨by omega, hlen, by omega, ?_, ?_, ?_⟩
    · intro i hi
      rw [Int.toNat_natCast] at hi
      show bs[i]? = os.stream[i]?
      rw [hstream, List.getElem?_append_left hi]
    · intro _ i
      show (os.read n).2.2.stream[i]? = os.stream[(bs.length : ℤ).toNat + i]?
      rw [hrest, hstream, Int.toNat_natCast, List.getElem?_append_right (by omega),
        Nat.add_sub_cancel_left]
    · intro hzero
      show os.stream[0]? = none
      rw [heof (List.length_eq_zero_iff.mp (by omega))]
      rfl

theorem Os.write_law (os : Os) (bs : List UInt8) :
    WriteLaw Os.written os bs (os.write bs).1 (os.write bs).2 := by
  unfold Os.write
  cases hw : os.writes with
  | nil => exact ⟨Int.le_refl _, by simp⟩
  | cons e es =>
      cases e with
      | accept j =>
          refine ⟨Int.ofNat_le.mpr (List.length_take_le' j bs), ?_⟩
          show os.written ++ bs.take j = os.written ++ bs.take (bs.take j).length
          rw [List.length_take, ← List.take_eq_take_min]
      | eintr => exact ⟨by simp, by simp⟩
      | error => exact ⟨by simp, by simp⟩

/-- Lists of outcomes, as a descriptor. -/
def Os.descriptor : Descriptor Os where
  errno := Os.errno
  read := Os.read
  write := Os.write
  stream os i := os.stream[i]?
  accepted := Os.written
  read_law os _ hn := os.read_law hn
  write_law os bs _ := os.write_law bs

theorem Os.descriptor_write : Os.descriptor.write = Os.write := rfl

theorem Os.descriptor_errno : Os.descriptor.errno = Os.errno := rfl

/-- The lists end. -/
theorem Os.descriptor_settles :
    Os.descriptor.Settles fun os => os.reads.length + os.writes.length := by
  have hread : ∀ (os : Os) (n : ℕ), 0 < n →
      (os.read n).2.2.reads = os.reads.tail ∧ ((os.read n).1 < 0 → os.reads ≠ []) := by
    intro os n hn
    by_cases hneg : (os.read n).1 < 0
    · obtain ⟨-, -, -, hne, htail, -⟩ := Os.read_neg hneg
      exact ⟨htail, fun _ => hne⟩
    · obtain ⟨bs, rest, -, -, -, -, -, -, htail⟩ := Os.read_nonneg os hn (by omega)
      exact ⟨htail, fun h => absurd h hneg⟩
  constructor
  · intro os n hn
    show (os.read n).2.2.reads.length + (os.read n).2.2.writes.length ≤ _
    rw [(hread os n hn).1, (Os.read_written os n).2, List.length_tail]
    omega
  · intro os n hn hneg
    have hpos := List.length_pos_iff.mpr ((hread os n hn).2 hneg)
    show (os.read n).2.2.reads.length + (os.read n).2.2.writes.length < _
    rw [(hread os n hn).1, (Os.read_written os n).2, List.length_tail]
    omega
  · intro os bs _
    have := Os.write_writes_le os bs
    show (os.write bs).2.reads.length + (os.write bs).2.writes.length ≤ _
    rw [(Os.write_stream os bs).2]
    omega
  · intro os bs hbs hstall
    have := Os.write_nonpos hbs hstall
    show (os.write bs).2.reads.length + (os.write bs).2.writes.length < _
    rw [(Os.write_stream os bs).2]
    omega

/-- A turn on this kernel is a turn of `rioWritenLoop`. -/
theorem rioWritenLoop_turn {v : Transfer Os} {n : ℕ} (hn : n < 2 ^ 63) (hsize : v.nleft ≤ n) :
    rioWritenLoop v.kernel v.usrbuf v.bufp v.nleft =
      match Os.descriptor.writenTurn n v with
      | .inl v' => rioWritenLoop v'.kernel v'.usrbuf v'.bufp v'.nleft
      | .inr r => (decide (r.1 = n), r.2.kernel) := by
  have hcount : (v.kernel.write (v.usrbuf.load v.bufp v.nleft)).1 ≤ v.nleft := by
    have := (Os.write_law v.kernel (v.usrbuf.load v.bufp v.nleft)).count
    rwa [Cells.length_load] at this
  rw [rioWritenLoop]
  by_cases hpos : 0 < v.nleft
  · by_cases hrc : (v.kernel.write (v.usrbuf.load v.bufp v.nleft)).1 ≤ 0
    · by_cases herr : (v.kernel.write (v.usrbuf.load v.bufp v.nleft)).2.errno = .eintr
      · simp only [Syscalls.writenTurn, Os.descriptor_write, Os.descriptor_errno, hpos, hrc, herr,
          if_true]
        rw [Transfer.advance_eq _ _ _ (Int.le_refl 0) (by omega) (by omega)]
        rfl
      · simp [Syscalls.writenTurn, Os.descriptor_write, Os.descriptor_errno, hpos, hrc, herr]
    · simp only [Syscalls.writenTurn, Os.descriptor_write, hpos, hrc, if_true, if_false]
      rw [Transfer.advance_eq _ _ _ (by omega) hcount (by omega)]
  · simp [Syscalls.writenTurn, hpos, ssizeT_natCast hn]

/-- **The `rio_writen` of `Rio.Unbuffered`** is the code on this kernel. -/
theorem rioWriten_os (os : Os) (buf : Cells UInt8) {n : ℕ} (hn : n < 2 ^ 63) {fuel : ℕ}
    (hfuel : os.reads.length + os.writes.length + n < fuel) :
    ∃ v, Os.descriptor.rioWriten fuel os buf n = some ((rioWriten os buf n).1, v) ∧
      v.kernel = (rioWriten os buf n).2 := by
  obtain ⟨r, hr⟩ := rioWriten_returns os buf hn Os.descriptor_settles hfuel
  have hsame : (r.1 = n ∨ r.1 = -1) ∧
      rioWritenLoop os buf 0 n = (decide (r.1 = n), r.2.kernel) := by
    refine loopExit_partial
      (I := fun v : Transfer Os => WritenInv Os.descriptor os buf n v ∧
        rioWritenLoop os buf 0 n = rioWritenLoop v.kernel v.usrbuf v.bufp v.nleft)
      (Q := fun r : ℤ × Transfer Os => (r.1 = n ∨ r.1 = -1) ∧
        rioWritenLoop os buf 0 n = (decide (r.1 = n), r.2.kernel)) ?_ ?_
      ⟨WritenInv.start Os.descriptor os buf n, rfl⟩ hr
    · rintro v v' ⟨hinv, hloop⟩ hturn
      have hplace := hinv.place
      rw [rioWritenLoop_turn hn (by omega), hturn] at hloop
      exact ⟨(hinv.next hn hturn).1, hloop⟩
    · rintro v r ⟨hinv, hloop⟩ hturn
      have hplace := hinv.place
      rw [rioWritenLoop_turn hn (by omega), hturn] at hloop
      refine ⟨?_, hloop⟩
      rcases hinv.exit hn hturn with ⟨hrc, -⟩ | ⟨hrc, -⟩
      · exact Or.inl hrc
      · exact Or.inr hrc
  obtain ⟨rc, v⟩ := r
  obtain ⟨hrc, hloop⟩ := hsame
  refine ⟨v, ?_⟩
  unfold rioWriten
  rw [hloop]
  rcases hrc with rfl | rfl
  · simpa using hr
  · simpa using hr

/-! ## §7. Both functions. -/

/-- **Unbuffered robust I/O**, for every descriptor, every state of it and fewer than `2^63`
bytes.  `rio_writen` returns `n` after all of the buffer was accepted, in order, or -1 after
less than all of it, and nothing else.  If `rio_readn` returns `j ≥ 0`, the first `j` bytes of
the buffer are the next `j` bytes of the stream, fewer than `n` only if the file ends there.
Both return unless they are interrupted for ever. -/
theorem robust_transfers (d : Descriptor K) (k : K) (buf : Cells UInt8) {n : ℕ}
    (hn : n < 2 ^ 63) :
    (∀ fuel rc v, d.rioWriten fuel k buf n = some (rc, v) →
      (rc = n ∨ rc = -1) ∧
      (rc = n → d.accepted v.kernel = d.accepted k ++ buf.load 0 n) ∧
      (rc = -1 → ∃ j < n, d.accepted v.kernel = d.accepted k ++ buf.load 0 j)) ∧
    (∀ fuel v, ∀ j : ℕ, d.rioReadn fuel k buf n = some ((j : ℤ), v) →
      j ≤ n ∧ (∀ i < j, d.stream k i = some (v.usrbuf i)) ∧ (j < n → d.stream k j = none)) ∧
    ∀ μ, d.Settles μ → ∀ fuel, μ k + n < fuel →
      (∃ r, d.rioWriten fuel k buf n = some r) ∧ ∃ r, d.rioReadn fuel k buf n = some r := by
  refine ⟨?_, ?_, ?_⟩
  · intro fuel rc v hrun
    rcases rioWriten_accepted hn hrun with ⟨hrc, hall⟩ | ⟨hrc, hsome⟩
    · refine ⟨Or.inl hrc, fun _ => hall, ?_⟩
      intro hneg
      omega
    · refine ⟨Or.inr hrc, ?_, fun _ => hsome⟩
      intro hpos
      omega
  · intro fuel v j hrun
    rcases (rioReadn_delivered hn hrun).1 with hneg | ⟨j', hle, hrc, hdata, hend, -⟩
    · have : (j : ℤ) = -1 := hneg
      omega
    · obtain rfl : j = j' := Int.ofNat_inj.mp hrc
      exact ⟨hle, hdata, hend⟩
  · intro μ hμ fuel hfuel
    exact ⟨rioWriten_returns k buf hn hμ hfuel, rioReadn_returns k buf hn hμ hfuel⟩

/-- A kernel that takes two bytes, is interrupted, accepts nothing and then fails; it has
three bytes to read, the first of them after an interruption. -/
def stallingOs : Os :=
  ⟨[1, 2, 3], [.eintr, .data 0], [], [.accept 2, .eintr, .accept 0, .error], .other⟩

def zeros : Cells UInt8 := fun _ => 0

/-- Four bytes to and from this kernel; both functions return within eleven turns. -/
theorem robust_transfers_stalling :
    (∃ v, Os.descriptor.rioWriten 20 stallingOs zeros 4 = some (-1, v) ∧
      ∃ j < 4, v.kernel.written = zeros.load 0 j) ∧
    (∃ v, Os.descriptor.rioReadn 20 stallingOs zeros 4 = some (3, v) ∧
      (∀ i < 3, stallingOs.stream[i]? = some (v.usrbuf i)) ∧ stallingOs.stream[3]? = none) ∧
    ∀ fuel, 10 < fuel → (∃ r, Os.descriptor.rioWriten fuel stallingOs zeros 4 = some r) ∧
      ∃ r, Os.descriptor.rioReadn fuel stallingOs zeros 4 = some r := by
  obtain ⟨hwrite, hread, hreturns⟩ :=
    @robust_transfers Os Os.descriptor stallingOs zeros 4 (by decide)
  refine ⟨?_, ?_, hreturns _ Os.descriptor_settles⟩
  · have hrc : (Os.descriptor.rioWriten 20 stallingOs zeros 4).map (·.1) = some (-1) := by decide
    obtain ⟨⟨rc, v⟩, hrun, hrc⟩ := Option.map_eq_some_iff.mp hrc
    obtain rfl : rc = -1 := hrc
    exact ⟨v, hrun, (hwrite 20 (-1) v hrun).2.2 rfl⟩
  · have hrc : (Os.descriptor.rioReadn 20 stallingOs zeros 4).map (·.1) = some 3 := by decide
    obtain ⟨⟨rc, v⟩, hrun, hrc⟩ := Option.map_eq_some_iff.mp hrc
    obtain rfl : rc = 3 := hrc
    obtain ⟨-, hdata, hend⟩ := hread 20 v 3 hrun
    exact ⟨v, hrun, hdata, hend (by decide)⟩

end ComputerScience.Rio
