/-
  ComputerScience.Rio.Unbuffered
  ──────────────────────────────
  **THE UNBUFFERED RIO ROUTINES** (`22-netprog2/csapp.c`, the same code in
  `16-io/csapp.c`): `rio_writen`.

  `rio_writen` calls `write` until the whole buffer is accepted; a short write moves
  the pointer on, an interrupted one is tried again.
-/
import ComputerScience.Lib.Cells
import ComputerScience.Rio.Posix

namespace ComputerScience.Rio

open ComputerScience.Lib

/-! ## §1. `rio_writen`. -/

/-- The loop of `rio_writen`; `false` is `return -1`.  A return value of `0` takes
the same branch as an error and is decided by the `errno` of an earlier call. -/
def rioWritenLoop (os : Os) (usrbuf : Cells UInt8) (bufp nleft : ℕ) : Bool × Os :=
  if 0 < nleft then
    if (os.write (usrbuf.load bufp nleft)).1 ≤ 0 then
      if (os.write (usrbuf.load bufp nleft)).2.errno = .eintr then
        rioWritenLoop (os.write (usrbuf.load bufp nleft)).2 usrbuf bufp nleft
      else (false, (os.write (usrbuf.load bufp nleft)).2)
    else
      rioWritenLoop (os.write (usrbuf.load bufp nleft)).2 usrbuf
        (bufp + (os.write (usrbuf.load bufp nleft)).1.toNat)
        (nleft - (os.write (usrbuf.load bufp nleft)).1.toNat)
  else (true, os)
termination_by os.writes.length + nleft
decreasing_by
  · have := Os.write_nonpos (usrbuf.load_ne_nil bufp (by assumption)) (by assumption)
    omega
  · have := Os.write_writes_le os (usrbuf.load bufp nleft)
    omega

/-- `rio_writen`. -/
def rioWriten (os : Os) (usrbuf : Cells UInt8) (n : ℕ) : ℤ × Os :=
  match rioWritenLoop os usrbuf 0 n with
  | (true, os) => (n, os)
  | (false, os) => (-1, os)

/-! ## §2. All of the buffer is written, once and in order. -/

/-- `rio_writen` leaves the reading side alone. -/
theorem rioWritenLoop_stream (os : Os) (buf : Cells UInt8) (bufp nleft : ℕ) :
    (rioWritenLoop os buf bufp nleft).2.stream = os.stream ∧
      (rioWritenLoop os buf bufp nleft).2.reads = os.reads := by
  fun_induction rioWritenLoop os buf bufp nleft with
  | case1 os bufp nleft h hw herr ih =>
      obtain ⟨h1, h2⟩ := Os.write_stream os (buf.load bufp nleft)
      exact ⟨ih.1.trans h1, ih.2.trans h2⟩
  | case2 os bufp nleft h hw herr => exact Os.write_stream os _
  | case3 os bufp nleft h hw ih =>
      obtain ⟨h1, h2⟩ := Os.write_stream os (buf.load bufp nleft)
      exact ⟨ih.1.trans h1, ih.2.trans h2⟩
  | case4 => exact ⟨rfl, rfl⟩

/-- A loop that does not fail has written everything. -/
theorem rioWritenLoop_written (os : Os) (buf : Cells UInt8) (bufp nleft : ℕ) :
    (rioWritenLoop os buf bufp nleft).1 = true →
      (rioWritenLoop os buf bufp nleft).2.written = os.written ++ buf.load bufp nleft := by
  fun_induction rioWritenLoop os buf bufp nleft with
  | case1 os bufp nleft h hw herr ih =>
      intro htrue
      have hnone := (Os.write_written os (buf.load bufp nleft)).2
      rw [Int.toNat_of_nonpos hw, List.take_zero, List.append_nil] at hnone
      rw [ih htrue, hnone]
  | case2 os bufp nleft h hw herr => exact fun hfalse => nomatch hfalse
  | case3 os bufp nleft h hw ih =>
      intro htrue
      obtain ⟨hle, hwr⟩ := Os.write_written os (buf.load bufp nleft)
      rw [Cells.length_load] at hle
      -- the accepted head and the rest make up the buffer
      rw [ih htrue, hwr, Cells.take_load _ _ hle, List.append_assoc, ← Cells.load_add,
        Nat.add_sub_cancel' hle]
  | case4 os bufp nleft h =>
      intro _
      obtain rfl : nleft = 0 := by omega
      simp

theorem rioWritenLoop_true (os : Os) (buf : Cells UInt8) (bufp nleft : ℕ) : os.WritesOk →
    (rioWritenLoop os buf bufp nleft).1 = true ∧
      (rioWritenLoop os buf bufp nleft).2.WritesOk := by
  fun_induction rioWritenLoop os buf bufp nleft with
  | case1 os bufp nleft h hw herr ih =>
      intro hok
      rcases Os.write_cases hok (buf.load_ne_nil bufp h) with ⟨k, hk, _, hrc, _⟩ | ⟨_, _, _, hok'⟩
      · omega
      · exact ih hok'
  | case2 os bufp nleft h hw herr =>
      intro hok
      rcases Os.write_cases hok (buf.load_ne_nil bufp h) with ⟨k, hk, _, hrc, _⟩ | ⟨_, he, _, _⟩
      · omega
      · exact absurd he herr
  | case3 os bufp nleft h hw ih =>
      intro hok
      rcases Os.write_cases hok (buf.load_ne_nil bufp h) with ⟨k, _, _, _, _, hok'⟩ | ⟨hrc, _⟩
      · exact ih hok'
      · omega
  | case4 os bufp nleft h => exact fun hok => ⟨rfl, hok⟩

/-- What `rio_writen` has written when it returns `n`. -/
theorem rioWriten_written {os : Os} {buf : Cells UInt8} {n : ℕ} (h : (rioWriten os buf n).1 = n) :
    (rioWriten os buf n).2.written = os.written ++ buf.load 0 n := by
  have hall := rioWritenLoop_written os buf 0 n
  unfold rioWriten at h ⊢
  rcases hloop : rioWritenLoop os buf 0 n with ⟨b, os'⟩
  rw [hloop] at h hall
  cases b with
  | true => exact hall rfl
  | false =>
      have hneg : (-1 : ℤ) = n := h
      omega

/-- **`rio_writen` writes the whole buffer**, for every sequence of short writes and
interruptions. -/
theorem rioWriten_spec {os : Os} (buf : Cells UInt8) (n : ℕ) (hok : os.WritesOk) :
    (rioWriten os buf n).1 = n ∧
      (rioWriten os buf n).2.written = os.written ++ buf.load 0 n ∧
      (rioWriten os buf n).2.WritesOk := by
  obtain ⟨htrue, hok'⟩ := rioWritenLoop_true os buf 0 n hok
  have hn : (rioWriten os buf n).1 = n ∧ (rioWriten os buf n).2.WritesOk := by
    unfold rioWriten
    rcases hloop : rioWritenLoop os buf 0 n with ⟨b, os'⟩
    rw [hloop] at htrue hok'
    subst htrue
    exact ⟨rfl, hok'⟩
  exact ⟨hn.1, rioWriten_written hn.1, hn.2⟩

theorem rioWriten_stream (os : Os) (buf : Cells UInt8) (n : ℕ) :
    (rioWriten os buf n).2.stream = os.stream ∧ (rioWriten os buf n).2.reads = os.reads := by
  obtain ⟨h1, h2⟩ := rioWritenLoop_stream os buf 0 n
  unfold rioWriten
  rcases hloop : rioWritenLoop os buf 0 n with ⟨b, os'⟩
  rw [hloop] at h1 h2
  cases b <;> exact ⟨h1, h2⟩

end ComputerScience.Rio
