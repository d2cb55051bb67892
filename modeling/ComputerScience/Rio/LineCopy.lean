/-
  ComputerScience.Rio.LineCopy
  ────────────────────────────
  **READ A LINE, WRITE IT, UNTIL `0`**: the loop that `echo` (`22-netprog2/echo.c`)
  and `cpfile` (`16-io/cpfile.c`) share.

      while ((n = Rio_readlineb(&rio, buf, MAXLINE)) != 0)
          Rio_writen(fd, buf, n);

  The two programs are linked with different copies of `rio_readlineb`; the loop is
  stated for any such routine that uses up input whenever it returns a positive count.
  `Rounds` lists what the rounds of the loop write.
-/
import ComputerScience.Rio.Buffered
import ComputerScience.Rio.Unbuffered

namespace ComputerScience.Rio

open ComputerScience.Lib

/-! ## §1. The loop. -/

/-- How a routine built on the `Rio_` wrappers ends. -/
inductive Outcome where
  | returned (os : Os)
  /-- `unix_error(msg)`: the process exits. -/
  | unixError (msg : String) (os : Os)

/-- A copy of `rio_readlineb(rp, buf, MAXLINE)`. -/
structure LineReader where
  run : RioT → Os → Cells UInt8 → IoRet
  /-- A positive count means that input was used up. -/
  progress : ∀ rp os buf, 0 < (run rp os buf).rc →
    unreadCount (run rp os buf).rp (run rp os buf).os < unreadCount rp os

/-- The `while` loop.  `Rio_readlineb` and `Rio_writen` end the process on an error. -/
def copyLoop (rd : LineReader) (rp : RioT) (os : Os) (buf : Cells UInt8) : Outcome :=
  let r := rd.run rp os buf
  if r.rc < 0 then .unixError "Rio_readlineb error" r.os
  else if r.rc ≠ 0 then
    let w := rioWriten r.os r.buf r.rc.toNat
    if w.1 ≠ r.rc then .unixError "Rio_writen error" w.2
    else copyLoop rd r.rp w.2 r.buf
  else .returned r.os
termination_by unreadCount rp os
decreasing_by
  have hlt := rd.progress rp os buf (by show 0 < r.rc; omega)
  have hstream : w.2.stream = r.os.stream := (rioWriten_stream r.os r.buf r.rc.toNat).1
  show r.rp.rioCnt.toNat + w.2.stream.length < _
  rw [hstream]
  exact hlt

/-! ## §2. What the loop writes. -/

/-- The loop takes `line s` off the stream `s` and writes `out s` in its place, until
the stream is empty. -/
inductive Rounds (line out : List UInt8 → List UInt8) : List UInt8 → List UInt8 → Prop where
  | done : Rounds line out [] []
  | round {s rest written : List UInt8} (hs : s ≠ []) (hline : s = line s ++ rest)
      (hrest : Rounds line out rest written) : Rounds line out s (out s ++ written)

/-- One round of a reader: it takes `line`, and the caller's buffer then starts with
`out`, as many bytes as were returned. -/
structure LineReader.Reads (rd : LineReader) (line out : List UInt8 → List UInt8) : Prop where
  served : ∀ rp os buf, rp.Inv → os.ReadsOk →
    Served rp os (line (unread rp os)) (rd.run rp os buf).rp (rd.run rp os buf).os
  eof : ∀ rp os buf, rp.Inv → os.ReadsOk → unread rp os = [] → (rd.run rp os buf).rc = 0
  data : ∀ rp os buf, rp.Inv → os.ReadsOk → unread rp os ≠ [] →
    out (unread rp os) ≠ [] ∧ (rd.run rp os buf).rc = (out (unread rp os)).length ∧
      (rd.run rp os buf).buf.load 0 (out (unread rp os)).length = out (unread rp os)

/-- `Rio_writen` after a round: everything is written and reading goes on as before. -/
theorem Served.writen {rp rp' : RioT} {os os' : Os} {bs : List UInt8}
    (h : Served rp os bs rp' os') (hwok : os.WritesOk) (buf : Cells UInt8) (n : ℕ) :
    (rioWriten os' buf n).1 = n ∧
      (rioWriten os' buf n).2.written = os.written ++ buf.load 0 n ∧
      (rioWriten os' buf n).2.WritesOk ∧ (rioWriten os' buf n).2.ReadsOk ∧
      unread rp' (rioWriten os' buf n).2 = unread rp' os' := by
  have hwok' : os'.WritesOk := by
    unfold Os.WritesOk
    rw [h.writes]
    exact hwok
  obtain ⟨hn, hwritten, hok⟩ := rioWriten_spec buf n hwok'
  obtain ⟨hstream, hreads⟩ := rioWriten_stream os' buf n
  refine ⟨hn, by rw [hwritten, h.written], hok, ?_, ?_⟩
  · unfold Os.ReadsOk
    rw [hreads]
    exact h.readsOk
  · unfold unread
    rw [hstream]

/-- **The run lemma of the loop**: it returns, and it wrote the rounds of the unread
bytes. -/
theorem copyLoop_spec {rd : LineReader} {line out : List UInt8 → List UInt8}
    (hrd : rd.Reads line out) (rp : RioT) (os : Os) (buf : Cells UInt8) :
    rp.Inv → os.ReadsOk → os.WritesOk →
    ∃ os' written, copyLoop rd rp os buf = .returned os' ∧
      os'.written = os.written ++ written ∧ Rounds line out (unread rp os) written := by
  induction rp, os, buf using copyLoop.induct rd with
  | case1 rp os buf r hneg =>
      intro hinv hok _
      exfalso
      have hneg' : (rd.run rp os buf).rc < 0 := hneg
      by_cases hs : unread rp os = []
      · have := hrd.eof rp os buf hinv hok hs
        omega
      · have := (hrd.data rp os buf hinv hok hs).2.1
        omega
  | case2 rp os buf r hneg hne w hw =>
      intro hinv hok hwok
      refine absurd ?_ hw
      show (rioWriten r.os r.buf r.rc.toNat).1 = r.rc
      rw [((hrd.served rp os buf hinv hok).writen hwok r.buf r.rc.toNat).1]
      omega
  | case3 rp os buf r hneg hne w hw ih =>
      intro hinv hok hwok
      have hserved := hrd.served rp os buf hinv hok
      obtain ⟨_, hwritten, hwok', hok', hunread⟩ := hserved.writen hwok r.buf r.rc.toNat
      have hs : unread rp os ≠ [] := fun hs => hne (hrd.eof rp os buf hinv hok hs)
      obtain ⟨_, hrc, hload⟩ := hrd.data rp os buf hinv hok hs
      obtain ⟨os', written, hloop, hout, hrounds⟩ := ih hserved.inv hok' hwok'
      refine ⟨os', out (unread rp os) ++ written, ?_, ?_, ?_⟩
      · rw [copyLoop]
        simp only
        rw [if_neg hneg, if_pos hne, if_neg hw]
        exact hloop
      · have hw2 : w.2.written = os.written ++ r.buf.load 0 r.rc.toNat := hwritten
        rw [hout, hw2, show r.rc = _ from hrc, Int.toNat_natCast, show r.buf.load 0 _ = _ from hload,
          List.append_assoc]
      · exact Rounds.round hs hserved.unread_eq (hunread ▸ hrounds)
  | case4 rp os buf r hneg hzero =>
      intro hinv hok _
      have h0 : (rd.run rp os buf).rc = 0 := by
        by_contra hne
        exact hzero hne
      have hs : unread rp os = [] := by
        by_contra hs
        obtain ⟨hout, hrc, _⟩ := hrd.data rp os buf hinv hok hs
        have := List.length_pos_iff.mpr hout
        omega
      refine ⟨r.os, [], ?_, ?_, by rw [hs]; exact Rounds.done⟩
      · rw [copyLoop]
        simp only
        rw [if_neg hneg, if_neg hzero]
      · rw [List.append_nil]
        exact (hrd.served rp os buf hinv hok).written

/-- `rio_readinitb` puts the buffer in order. -/
theorem rioReadinitb_inv (rio : RioT) : (rioReadinitb rio).Inv := by
  show 0 + 0 ≤ RIO_BUFSIZE
  exact Nat.zero_le _

/-! ## §3. Lines and buffers. -/

/-- A line is not empty while the stream is not. -/
theorem takeLine_ne_nil {k : ℕ} {s : List UInt8} (hk : 0 < k) (hs : s ≠ []) :
    takeLine k s ≠ [] := by
  cases k with
  | zero => omega
  | succ k =>
      cases s with
      | nil => exact absurd rfl hs
      | cons c s =>
          simp only [takeLine]
          split <;> simp

/-- A line fits its room. -/
theorem takeLine_length_le (k : ℕ) (s : List UInt8) : (takeLine k s).length ≤ k := by
  induction k generalizing s with
  | zero => exact Nat.le_refl _
  | succ k ih =>
      cases s with
      | nil => exact Nat.zero_le _
      | cons c s =>
          rw [takeLine]
          split
          · exact Nat.succ_le_succ (Nat.zero_le k)
          · exact Nat.succ_le_succ (ih s)

/-- A line is the head of the stream. -/
theorem takeLine_isHead (k : ℕ) (s : List UInt8) : takeLine k s <+: s := by
  induction k generalizing s with
  | zero => exact List.nil_prefix
  | succ k ih =>
      cases s with
      | nil => exact List.nil_prefix
      | cons c s =>
          rw [takeLine]
          split
          · exact List.prefix_append [c] s
          · exact (List.prefix_cons_inj c).mpr (ih s)

/-- Bytes before the first newline. -/
theorem takeLine_append {xs : List UInt8} (h10 : (10 : UInt8) ∉ xs) {k : ℕ} (hk : xs.length ≤ k)
    (ys : List UInt8) : takeLine k (xs ++ ys) = xs ++ takeLine (k - xs.length) ys := by
  induction xs generalizing k with
  | nil => rfl
  | cons x xs ih =>
      rw [List.mem_cons, not_or] at h10
      rw [List.length_cons] at hk
      obtain ⟨j, rfl⟩ : ∃ j, k = j + 1 := ⟨k - 1, by omega⟩
      rw [List.cons_append, takeLine, if_neg (fun h => h10.1 h.symm), ih h10.2 (by omega),
        List.length_cons, Nat.add_sub_add_right]
      rfl

/-- The first line of a stream that starts with a short line. -/
theorem takeLine_of_line {k : ℕ} {body : List UInt8} (rest : List UInt8) (hnot : 10 ∉ body)
    (hlen : body.length < k) : takeLine k (body ++ 10 :: rest) = body ++ [10] := by
  obtain ⟨j, hj⟩ : ∃ j, k - body.length = j + 1 := ⟨k - body.length - 1, by omega⟩
  rw [takeLine_append hnot (by omega), hj]
  rfl

/-- A newline stands at the end of a line only. -/
theorem not_mem_dropLast_takeLine (k : ℕ) (s : List UInt8) :
    (10 : UInt8) ∉ (takeLine k s).dropLast := by
  induction k generalizing s with
  | zero => exact List.not_mem_nil
  | succ k ih =>
      cases s with
      | nil => exact List.not_mem_nil
      | cons c s =>
          rw [takeLine]
          by_cases hc : c = 10
          · rw [if_pos hc]
            exact List.not_mem_nil
          · rw [if_neg hc]
            have hrest := ih s
            cases hline : takeLine k s with
            | nil => exact List.not_mem_nil
            | cons d l =>
                rw [hline] at hrest
                rw [List.dropLast_cons_cons, List.mem_cons, not_or]
                exact ⟨fun h => hc h.symm, hrest⟩

/-- The head of a buffer that was written from offset `0` on. -/
theorem load_store_append (buf : Cells UInt8) (xs ys : List UInt8) :
    (buf.store 0 (xs ++ ys)).load 0 xs.length = xs := by
  have h := Cells.load_store_self buf 0 (xs ++ ys)
  rw [List.length_append, Cells.load_add] at h
  exact (List.append_inj h (by simp)).1

end ComputerScience.Rio
