/-
  ComputerScience.Lib.Utf8
  ────────────────────────
  **UTF-8 AS GO READS IT.**

  A string is its bytes, well-formed or not.  `decodeRune` reads one code point off the
  front, `runes` reads the whole string; a code point takes one byte at least
  (`decodeRune_pos`), so that `runes` ends.
-/
import Mathlib.Data.Nat.Notation

namespace ComputerScience.Lib

/-- `utf8.RuneError` -/
def RuneError : ℕ := 0xFFFD

/-- A byte of a code point after the first. -/
def inRange (c : UInt8) (lo hi : ℕ) : Bool := lo ≤ c.toNat && c.toNat ≤ hi

/-- `utf8.DecodeRuneInString`: the code point at the front and its width; anything that is
not well-formed is `RuneError`, one byte wide. -/
def decodeRune : List UInt8 → ℕ × ℕ
  | [] => (RuneError, 0)
  | b :: s =>
      let x := b.toNat
      if x < 0x80 then (x, 1)
      else if 0xC2 ≤ x ∧ x ≤ 0xDF then
        match s with
        | b1 :: _ =>
            if inRange b1 0x80 0xBF then ((x - 0xC0) * 64 + (b1.toNat - 0x80), 2)
            else (RuneError, 1)
        | _ => (RuneError, 1)
      else if 0xE0 ≤ x ∧ x ≤ 0xEF then
        match s with
        | b1 :: b2 :: _ =>
            if inRange b1 (if x = 0xE0 then 0xA0 else 0x80) (if x = 0xED then 0x9F else 0xBF) &&
                inRange b2 0x80 0xBF then
              ((x - 0xE0) * 4096 + (b1.toNat - 0x80) * 64 + (b2.toNat - 0x80), 3)
            else (RuneError, 1)
        | _ => (RuneError, 1)
      else if 0xF0 ≤ x ∧ x ≤ 0xF4 then
        match s with
        | b1 :: b2 :: b3 :: _ =>
            if inRange b1 (if x = 0xF0 then 0x90 else 0x80) (if x = 0xF4 then 0x8F else 0xBF) &&
                inRange b2 0x80 0xBF && inRange b3 0x80 0xBF then
              ((x - 0xF0) * 262144 + (b1.toNat - 0x80) * 4096 + (b2.toNat - 0x80) * 64 +
                (b3.toNat - 0x80), 4)
            else (RuneError, 1)
        | _ => (RuneError, 1)
      else (RuneError, 1)

/-- A code point has one byte at least. -/
theorem decodeRune_pos (b : UInt8) (s : List UInt8) : 0 < (decodeRune (b :: s)).2 := by
  unfold decodeRune
  dsimp only
  repeat' split
  all_goals exact Nat.succ_pos _

/-- The code points of a string, each with its bytes. -/
def runes : List UInt8 → List (ℕ × List UInt8)
  | [] => []
  | b :: s =>
      ((decodeRune (b :: s)).1, (b :: s).take (decodeRune (b :: s)).2) ::
        runes ((b :: s).drop (decodeRune (b :: s)).2)
termination_by s => s.length
decreasing_by
  have := decodeRune_pos b s
  rw [List.length_drop, List.length_cons]
  omega

end ComputerScience.Lib
