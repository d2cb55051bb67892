/-
  ComputerScience.Rio.Posix
  ─────────────────────────
  **`read` AND `write` AS THE RIO PACKAGE SEES THEM.**

  The kernel side of one descriptor pair: the bytes still to be received, the
  bytes accepted so far, and for each direction the list of outcomes the kernel
  will produce, one per system call.  A call past the end of its list is served in
  full.  Every finite run of the program makes finitely many system calls, so the
  lists range over every chunking, every pattern of short writes and every
  placement of `EINTR` and of other errors.
-/
import Mathlib.Data.Int.Notation
import Mathlib.Data.List.Basic

namespace ComputerScience.Rio

/-! ## §1. Kernel state. -/

/-- What `errno` says: the code only compares it with `EINTR`. -/
inductive Errno where
  | none
  | eintr
  | other
  deriving DecidableEq, Repr

/-- The outcome of one `read`. -/
inductive ReadEvent where
  /-- At most `k + 1` bytes arrive (fewer at the end of the stream). -/
  | data (k : ℕ)
  /-- `-1` with `errno = EINTR`. -/
  | eintr
  /-- `-1` with another `errno`. -/
  | error
  deriving DecidableEq, Repr

/-- The outcome of one `write`. -/
inductive WriteEvent where
  /-- At most `k` bytes are accepted. -/
  | accept (k : ℕ)
  /-- `-1` with `errno = EINTR`. -/
  | eintr
  /-- `-1` with another `errno`. -/
  | error
  deriving DecidableEq, Repr

/-- The kernel side of the descriptors. -/
structure Os where
  /-- Bytes not yet handed to the program. -/
  stream : List UInt8
  /-- Outcomes of the coming `read` calls. -/
  reads : List ReadEvent
  /-- Bytes accepted from the program, in order. -/
  written : List UInt8
  /-- Outcomes of the coming `write` calls. -/
  writes : List WriteEvent
  errno : Errno
  deriving DecidableEq, Repr

/-! ## §2. The system calls. -/

/-- `read(fd, buf, n)`: the return value, the bytes put into `buf`, the kernel
afterwards.  Zero is returned only, and then always, at the end of the stream. -/
def Os.read (os : Os) (n : ℕ) : ℤ × List UInt8 × Os :=
  match os.reads with
  -- past the list of outcomes the kernel serves in full
  | [] =>
      let bs := os.stream.take n
      (bs.length, bs, { os with stream := os.stream.drop n })
  | .data k :: es =>
      -- `k + 1`: a `read` that returns 0 is the end of the stream
      let bs := os.stream.take (min (k + 1) n)
      (bs.length, bs, { os with stream := os.stream.drop (min (k + 1) n), reads := es })
  | .eintr :: es => (-1, [], { os with reads := es, errno := .eintr })
  | .error :: es => (-1, [], { os with reads := es, errno := .other })

/-- `write(fd, buf, n)` where the `n` bytes at `buf` are `bs`. -/
def Os.write (os : Os) (bs : List UInt8) : ℤ × Os :=
  match os.writes with
  | [] => (bs.length, { os with written := os.written ++ bs })
  | .accept k :: es =>
      let bs' := bs.take k
      (bs'.length, { os with written := os.written ++ bs', writes := es })
  | .eintr :: es => (-1, { os with writes := es, errno := .eintr })
  | .error :: es => (-1, { os with writes := es, errno := .other })

/-- No `read` fails with anything but `EINTR`. -/
def Os.ReadsOk (os : Os) : Prop := ReadEvent.error ∉ os.reads

/-- Every `write` takes at least one byte or is interrupted. -/
def Os.WritesOk (os : Os) : Prop :=
  WriteEvent.error ∉ os.writes ∧ WriteEvent.accept 0 ∉ os.writes

/-! ## §3. What one call can do. -/

/-- A `read` that does not fail delivers the head of the stream, and nothing only
at its end. -/
theorem Os.read_nonneg (os : Os) {n : ℕ} (hn : 0 < n) (h : 0 ≤ (os.read n).1) :
    ∃ bs rest, os.stream = bs ++ rest ∧ bs.length ≤ n ∧ (bs = [] → os.stream = []) ∧
      (os.read n).1 = bs.length ∧ (os.read n).2.1 = bs ∧
      (os.read n).2.2.stream = rest ∧ (os.read n).2.2.reads = os.reads.tail := by
  unfold Os.read at h ⊢
  cases hr : os.reads with
  | nil =>
      refine ⟨os.stream.take n, os.stream.drop n, (List.take_append_drop _ _).symm, ?_, ?_,
        rfl, rfl, rfl, ?_⟩
      · exact List.length_take_le _ _
      · intro hnil
        rcases List.take_eq_nil_iff.mp hnil with h0 | h0
        · omega
        · exact h0
      · simp
  | cons e es =>
      cases e with
      | data k =>
          refine ⟨os.stream.take (min (k + 1) n), os.stream.drop (min (k + 1) n),
            (List.take_append_drop _ _).symm, ?_, ?_, rfl, rfl, rfl, rfl⟩
          · exact Nat.le_trans (List.length_take_le _ _) (Nat.min_le_right _ _)
          · intro hnil
            rcases List.take_eq_nil_iff.mp hnil with h0 | h0
            · omega
            · exact h0
      | eintr => simp [hr] at h
      | error => simp [hr] at h

/-- A `read` that fails uses up its outcome and delivers nothing. -/
theorem Os.read_neg {os : Os} {n : ℕ} (h : (os.read n).1 < 0) :
    (os.read n).1 = -1 ∧ (os.read n).2.1 = [] ∧
      (os.read n).2.2.stream = os.stream ∧
      os.reads ≠ [] ∧ (os.read n).2.2.reads = os.reads.tail ∧
      (os.ReadsOk → (os.read n).2.2.errno = .eintr) := by
  unfold Os.read at h ⊢
  cases hr : os.reads with
  | nil => simp [hr] at h; omega
  | cons e es =>
      cases e with
      | data k => simp [hr] at h; omega
      | eintr => simp
      | error => simp [Os.ReadsOk, hr]

/-- `read` leaves the other direction alone. -/
theorem Os.read_written (os : Os) (n : ℕ) :
    (os.read n).2.2.written = os.written ∧ (os.read n).2.2.writes = os.writes := by
  unfold Os.read
  split <;> exact ⟨rfl, rfl⟩

/-- A `write` takes as many bytes as it returns, the first ones. -/
theorem Os.write_written (os : Os) (bs : List UInt8) :
    (os.write bs).1.toNat ≤ bs.length ∧
      (os.write bs).2.written = os.written ++ bs.take (os.write bs).1.toNat := by
  unfold Os.write
  cases os.writes with
  | nil => simp
  | cons e es =>
      cases e with
      | accept k =>
          refine ⟨List.length_take_le' k bs, ?_⟩
          show os.written ++ bs.take k = os.written ++ bs.take (bs.take k).length
          rw [List.length_take, ← List.take_eq_take_min]
      | eintr => simp
      | error => simp

/-- A `write` that is not interrupted takes a nonempty head of the buffer. -/
theorem Os.write_cases {os : Os} {bs : List UInt8} (hok : os.WritesOk) (hbs : bs ≠ []) :
    (∃ k, 0 < k ∧ k ≤ bs.length ∧ (os.write bs).1 = (k : ℤ) ∧
      (os.write bs).2.written = os.written ++ bs.take k ∧ (os.write bs).2.WritesOk) ∨
    ((os.write bs).1 = -1 ∧ (os.write bs).2.errno = .eintr ∧
      (os.write bs).2.written = os.written ∧ (os.write bs).2.WritesOk) := by
  have hlen : 0 < bs.length := List.length_pos_iff.mpr hbs
  unfold Os.WritesOk at hok ⊢
  unfold Os.write
  cases hw : os.writes with
  | nil =>
      left
      exact ⟨bs.length, hlen, Nat.le_refl _, rfl, by simp, by simp⟩
  | cons e es =>
      rw [hw] at hok
      simp only [List.mem_cons, not_or] at hok
      cases e with
      | accept k =>
          left
          -- `accept 0` is excluded by `WritesOk`
          have hk : 0 < k := by
            rcases Nat.eq_zero_or_pos k with h0 | h0
            · exact absurd (by rw [h0]) hok.2.1
            · exact h0
          have hlen' : (bs.take k).length = min k bs.length := List.length_take
          refine ⟨(bs.take k).length, by omega, by omega, rfl, ?_, hok.1.2, hok.2.2⟩
          show os.written ++ bs.take k = os.written ++ bs.take (bs.take k).length
          rw [hlen', ← List.take_eq_take_min]
      | eintr => right; exact ⟨rfl, rfl, rfl, hok.1.2, hok.2.2⟩
      | error => exact absurd rfl hok.1.1

/-- A `write` that takes nothing uses up an outcome. -/
theorem Os.write_nonpos {os : Os} {bs : List UInt8} (hbs : bs ≠ []) (h : (os.write bs).1 ≤ 0) :
    (os.write bs).2.writes.length < os.writes.length := by
  have hlen : 0 < bs.length := List.length_pos_iff.mpr hbs
  unfold Os.write at h ⊢
  cases hw : os.writes with
  | nil =>
      simp only [hw] at h
      omega
  | cons e es => cases e <;> simp

/-- `write` leaves the other direction alone. -/
theorem Os.write_stream (os : Os) (bs : List UInt8) :
    (os.write bs).2.stream = os.stream ∧ (os.write bs).2.reads = os.reads := by
  unfold Os.write
  split <;> exact ⟨rfl, rfl⟩

theorem Os.write_writes_le (os : Os) (bs : List UInt8) :
    (os.write bs).2.writes.length ≤ os.writes.length := by
  unfold Os.write
  split <;> simp_all

end ComputerScience.Rio
