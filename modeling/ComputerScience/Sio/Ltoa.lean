/-
  ComputerScience.Sio.Ltoa
  ────────────────────────
  **SIGNAL-SAFE OUTPUT OF A `long`** (`15-ecf-signals/csapp.c`).

  `sio_ltoa` writes the digits of a number from the lowest to the highest and turns the
  string around.  Its loop goes on while the quotient is positive, and its remainder is
  C's, with the sign of the number: a negative number gets one character.

    • `sioLtoa_nonneg` — a number that is not negative gets its digits, in any base up to
      36 and in any array with room for them,
    • `sioPutl_nonneg`, `sioPutl_neg` — what `sio_putl` writes,
    • `parseDecimal_neg_char` — what it writes for a negative number does not read back.
-/
import ComputerScience.Lib.CString
import ComputerScience.Lib.Decimal
import ComputerScience.Lib.Rearrange

namespace ComputerScience.Sio

open ComputerScience.Lib

/-! ## §1. The functions. -/

/-- The loop of `sio_reverse`; `j` goes down with every turn. -/
def reverseLoop (i : ℕ) : ℕ → Cells UInt8 → Cells UInt8
  | 0, s => s
  | j + 1, s => if i < j + 1 then reverseLoop (i + 1) j (s.swap i (j + 1)) else s

/-- `sio_reverse(s)`.  On an empty string `j` starts at `-1`, which is no turn as well. -/
def sioReverse (size : ℕ) (s : Cells UInt8) : Option (Cells UInt8) := do
  let n ← s.strlen size 0
  some (reverseLoop 0 (n - 1) s)

/-- `(c < 10) ? c + '0' : c - 10 + 'a'`, as a character. -/
def digitChar (c : ℤ) : UInt8 := if c < 10 then UInt8.ofInt (c + 48) else UInt8.ofInt (c - 10 + 97)

/-- The `do`-loop of `sio_ltoa`, for at most `fuel` turns. -/
def ltoaLoop (size : ℕ) (b : ℤ) : ℕ → ℤ → Cells UInt8 → ℕ → Option (Cells UInt8 × ℕ)
  | 0, _, _, _ => none
  | fuel + 1, v, s, i => do
      let s ← s.put size i (digitChar (v.tmod b))
      if v.tdiv b > 0 then ltoaLoop size b fuel (v.tdiv b) s (i + 1) else some (s, i + 1)

/-- `sio_ltoa(v, s, b)`, for an array `s` of `size` characters.  In a base of two or more
a quotient is smaller than its number, and there are no more than `v + 1` turns. -/
def sioLtoa (size : ℕ) (v : ℤ) (s : Cells UInt8) (b : ℤ) : Option (Cells UInt8) := do
  let (s, i) ← ltoaLoop size b (v.natAbs + 1) v s 0
  let s ← s.put size i 0
  sioReverse size s

/-- `sio_strlen(s)` -/
def sioStrlen (size : ℕ) (s : Cells UInt8) : Option ℕ := s.scan size (fun c => c == 0) 0

/-- `sio_puts(s)`: the bytes handed to `write`. -/
def sioPuts (size : ℕ) (s : Cells UInt8) : Option (List UInt8) := do
  let n ← sioStrlen size s
  some (s.load 0 n)

/-- `sio_putl(v)`; `s` is what the local array happens to hold. -/
def sioPutl (v : Int64) (s : Cells UInt8) : Option (List UInt8) := do
  let s ← sioLtoa 128 v.toInt s 10
  sioPuts 128 s

/-! ## §2. The loops. -/

/-- The characters of a number in base `b`, the lowest digit first. -/
def lowChars (b n : ℕ) : List UInt8 := (lowDigits b n).map (fun d => digitChar (d : ℕ))

theorem lowChars_length (b n : ℕ) : (lowChars b n).length = (lowDigits b n).length :=
  List.length_map _

/-- **The digit loop** on a number that is not negative. -/
theorem ltoaLoop_nonneg {b : ℕ} (hb : 2 ≤ b) (size fuel n : ℕ) (s : Cells UInt8) (i : ℕ)
    (hfuel : n < fuel) (hsize : i + (lowChars b n).length ≤ size) :
    ltoaLoop size b fuel n s i =
      some (s.store i (lowChars b n), i + (lowChars b n).length) := by
  induction fuel generalizing n s i with
  | zero => omega
  | succ fuel ih =>
      have hmod : (n : ℤ).tmod b = (n % b : ℕ) := (Int.ofNat_tmod n b).symm
      have hdiv : (n : ℤ).tdiv b = (n / b : ℕ) := (Int.ofNat_tdiv n b).symm
      rw [ltoaLoop, hmod, hdiv]
      by_cases hlt : n < b
      · have hchars : lowChars b n = [digitChar (n : ℕ)] := by
          unfold lowChars
          rw [lowDigits_of_lt hlt]
          rfl
        rw [hchars] at hsize ⊢
        rw [Cells.put_eq s _ (by simpa using hsize), Cells.update_eq_store, Nat.mod_eq_of_lt hlt]
        exact if_neg (by rw [Nat.div_eq_of_lt hlt]; simp)
      · have hchars : lowChars b n = digitChar (n % b : ℕ) :: lowChars b (n / b) := by
          unfold lowChars
          rw [lowDigits_of_le hb (by omega)]
          rfl
        rw [hchars, List.length_cons] at hsize
        have hq : 0 < n / b := Nat.div_pos (by omega) (by omega)
        have hsmall : n / b < n := Nat.div_lt_self (by omega) hb
        rw [Cells.put_eq s _ (by omega)]
        show (if ((n / b : ℕ) : ℤ) > 0 then _ else _) = _
        rw [if_pos (by omega), ih (n / b) _ (i + 1) (by omega) (by omega), Cells.update_eq_store,
          hchars]
        congr 2
        · exact Cells.store_store_append s i [digitChar (n % b : ℕ)] (lowChars b (n / b))
        · rw [List.length_cons]
          omega

/-- The digit loop on a negative number: one character, of a remainder that is not
positive. -/
theorem ltoaLoop_neg {b : ℕ} (size fuel : ℕ) {v : ℤ} (hv : v < 0) (s : Cells UInt8) {i : ℕ}
    (hsize : i < size) :
    ltoaLoop size b (fuel + 1) v s i = some (s.store i [digitChar (v.tmod b)], i + 1) := by
  have hq : ¬ v.tdiv b > 0 := by
    obtain ⟨n, hn⟩ : ∃ n : ℕ, v = -(n : ℤ) := ⟨v.natAbs, by omega⟩
    have hnonneg : (0 : ℤ) ≤ ((n / b : ℕ) : ℤ) := Int.natCast_nonneg _
    rw [hn, Int.neg_tdiv, ← Int.ofNat_tdiv]
    omega
  rw [ltoaLoop, Cells.put_eq s _ hsize, Cells.update_eq_store]
  exact if_neg hq

/-- The loop of `sio_reverse` mirrors the cells from `i` to `j`. -/
theorem reverseLoop_apply (i j : ℕ) (s : Cells UInt8) (x : ℕ) :
    reverseLoop i j s x = if i ≤ x ∧ x ≤ j then s (i + j - x) else s x := by
  induction j generalizing i s with
  | zero =>
      split
      next h =>
        obtain ⟨rfl, rfl⟩ : i = 0 ∧ x = 0 := by omega
        rfl
      next => rfl
  | succ j ih =>
      unfold reverseLoop
      by_cases hij : i < j + 1
      · rw [if_pos hij, ih]
        by_cases hin : i + 1 ≤ x ∧ x ≤ j
        · rw [if_pos hin, if_pos (by omega), Cells.swap_of_ne s (by omega) (by omega)]
          congr 1
          omega
        · rw [if_neg hin]
          by_cases hlo : x = i
          · rw [hlo, Cells.swap_left, if_pos (by omega)]
            congr 1
            omega
          · by_cases hhi : x = j + 1
            · rw [hhi, Cells.swap_right, if_pos (by omega)]
              congr 1
              omega
            · rw [Cells.swap_of_ne s hlo hhi, if_neg (by omega)]
      · rw [if_neg hij]
        split
        next h =>
          congr 1
          omega
        next => rfl

/-- **`sio_reverse` turns the string around.** -/
theorem sioReverse_isStr {size : ℕ} {s : Cells UInt8} {xs : List UInt8} (h : s.IsStr 0 xs)
    (hsize : xs.length < size) :
    ∃ s', sioReverse size s = some s' ∧ s'.IsStr 0 xs.reverse := by
  have hlen : s.strlen size 0 = some xs.length := Cells.strlen_eq h (by omega)
  refine ⟨reverseLoop 0 (xs.length - 1) s, by unfold sioReverse; rw [hlen]; rfl, ?_⟩
  have hchar : ∀ i, (hi : i < xs.length) → s i = xs[i] := by
    intro i hi
    have hget := Cells.getElem_load s 0 xs.length i (by rwa [Cells.length_load])
    rw [Nat.zero_add] at hget
    rw [← hget]
    simp only [h.chars]
  apply Cells.isStr_of_chars
  · apply List.ext_getElem
    · rw [Cells.length_load]
    · intro i h₁ h₂
      rw [List.length_reverse] at h₂
      rw [Cells.getElem_load, reverseLoop_apply, if_pos (by omega), List.getElem_reverse,
        hchar _ (by omega)]
      congr 1
      omega
  · have hnul := h.nul
    rw [Nat.zero_add] at hnul
    rw [List.length_reverse, Nat.zero_add, reverseLoop_apply]
    by_cases hz : xs.length = 0
    · rw [hz] at hnul ⊢
      simpa using hnul
    · rw [if_neg (by omega), hnul]
  · rw [List.mem_reverse]
    exact h.nonul

/-- What follows the digit loop: the NUL and the reversal. -/
theorem finish_isStr {size : ℕ} (s : Cells UInt8) {xs : List UInt8} (hno : (0 : UInt8) ∉ xs)
    (hsize : xs.length < size) :
    ∃ s', ((s.store 0 xs).put size xs.length 0).bind (sioReverse size) = some s' ∧
      s'.IsStr 0 xs.reverse := by
  have happend : Function.update (s.store 0 xs) xs.length 0 = s.store 0 (xs ++ [0]) := by
    rw [Cells.update_eq_store]
    have := Cells.store_store_append s 0 xs [0]
    rwa [Nat.zero_add] at this
  have hstr : Cells.IsStr (Function.update (s.store 0 xs) xs.length 0) 0 xs := by
    rw [happend]
    exact Cells.isStr_store_self s 0 hno
  rw [Cells.put_eq _ _ hsize]
  exact sioReverse_isStr hstr hsize

/-! ## §3. `sio_ltoa` and `sio_putl`. -/

theorem digitChar_of_lt {d : ℕ} (h : d < 10) : digitChar d = UInt8.ofNat (48 + d) := by
  interval_cases d <;> rfl

/-- The characters of the digits in a base up to 36 are not NUL. -/
theorem digitChar_ne_zero {d : ℕ} (h : d < 36) : digitChar d ≠ 0 := by
  interval_cases d <;> decide

/-- **`sio_ltoa` of a number that is not negative**: its digits, the highest first. -/
theorem sioLtoa_nonneg {b size n : ℕ} (hb : 2 ≤ b) (hb' : b ≤ 36) (s : Cells UInt8)
    (hsize : (lowDigits b n).length < size) :
    ∃ s', sioLtoa size n s b = some s' ∧ s'.IsStr 0 (lowChars b n).reverse := by
  rw [← lowChars_length] at hsize
  have hno : (0 : UInt8) ∉ lowChars b n := by
    intro hmem
    obtain ⟨d, hd, hzero⟩ := List.mem_map.mp hmem
    exact digitChar_ne_zero (Nat.lt_of_lt_of_le (lowDigits_lt hb hd) hb') hzero
  have hloop := ltoaLoop_nonneg hb size (n + 1) n s 0 (by omega) (by omega)
  rw [Nat.zero_add] at hloop
  obtain ⟨s', hs', hstr⟩ := finish_isStr s hno hsize
  refine ⟨s', ?_, hstr⟩
  show (ltoaLoop size b (n + 1) n s 0).bind (fun r => (r.1.put size r.2 0).bind (sioReverse size)) =
    some s'
  rw [hloop]
  exact hs'

/-- C's remainder of a negative number. -/
theorem tmod_ten_range {v : ℤ} (hv : v < 0) : -10 < v.tmod 10 ∧ v.tmod 10 ≤ 0 := by
  constructor
  · exact Int.lt_tmod_of_pos v (by decide)
  · rw [← Int.neg_neg v, Int.neg_tmod, Int.neg_nonpos_iff]
    exact Int.tmod_nonneg 10 (by omega)

/-- `sio_ltoa` of a negative number: one character. -/
theorem sioLtoa_neg {size : ℕ} {v : ℤ} (hv : v < 0) (s : Cells UInt8) (hsize : 1 < size) :
    ∃ s', sioLtoa size v s 10 = some s' ∧ s'.IsStr 0 [digitChar (v.tmod 10)] := by
  have hno : (0 : UInt8) ∉ [digitChar (v.tmod 10)] := by
    obtain ⟨hlo, hhi⟩ := tmod_ten_range hv
    rw [List.mem_singleton]
    generalize v.tmod 10 = c at hlo hhi
    interval_cases c <;> decide
  have hloop := ltoaLoop_neg (b := 10) size v.natAbs hv s (show 0 < size by omega)
  obtain ⟨s', hs', hstr⟩ := finish_isStr s hno hsize
  refine ⟨s', ?_, hstr⟩
  show (ltoaLoop size 10 (v.natAbs + 1) v s 0).bind
    (fun r => (r.1.put size r.2 0).bind (sioReverse size)) = some s'
  rw [show (10 : ℤ) = ((10 : ℕ) : ℤ) from rfl, hloop]
  exact hs'

theorem sioPuts_isStr {size : ℕ} {s : Cells UInt8} {xs : List UInt8} (h : s.IsStr 0 xs)
    (hsize : xs.length < size) : sioPuts size s = some xs := by
  have hlen : s.strlen size 0 = some xs.length := Cells.strlen_eq h (by omega)
  have hscan : sioStrlen size s = some xs.length := by
    unfold Cells.strlen at hlen
    unfold sioStrlen
    obtain ⟨j, hj, hval⟩ := Option.bind_eq_some_iff.mp hlen
    rw [hj]
    exact hval
  unfold sioPuts
  rw [hscan]
  exact congrArg some h.chars

/-- **What `sio_putl` writes for a number that is not negative.** -/
theorem sioPutl_nonneg {v : Int64} (hv : 0 ≤ v.toInt) (s : Cells UInt8) :
    sioPutl v s = some (decimal v.toInt) := by
  have hlt := v.toInt_lt
  obtain ⟨n, hn⟩ : ∃ n : ℕ, v.toInt = n := ⟨v.toInt.natAbs, by omega⟩
  rw [hn] at hlt
  have hlen : (lowDigits 10 n).length ≤ 19 :=
    lowDigits_length_le (by decide) (by decide) (by
      omega)
  obtain ⟨s', hs', hstr⟩ := sioLtoa_nonneg (by decide) (by decide) s
    (show (lowDigits 10 n).length < 128 by omega)
  have hputs : sioPuts 128 s' = some (lowChars 10 n).reverse :=
    sioPuts_isStr hstr (by rw [List.length_reverse, lowChars_length]; omega)
  have hdec : decimal (n : ℤ) = (lowChars 10 n).reverse := by
    unfold decimal decimalNat lowChars
    rw [if_neg (by omega), Int.natAbs_natCast, List.map_reverse]
    congr 1
    apply List.map_congr_left
    intro d hd
    exact (digitChar_of_lt (lowDigits_lt (by decide) hd)).symm
  unfold sioPutl
  rw [hn, hdec]
  show (sioLtoa 128 (n : ℤ) s 10).bind (sioPuts 128) = _
  rw [show (10 : ℤ) = ((10 : ℕ) : ℤ) from rfl, hs']
  exact hputs

/-- **What `sio_putl` writes for a negative number**: the character of its last digit,
counted down from `'0'`. -/
theorem sioPutl_neg {v : Int64} (hv : v.toInt < 0) (s : Cells UInt8) :
    sioPutl v s = some [digitChar (v.toInt.tmod 10)] := by
  obtain ⟨s', hs', hstr⟩ := sioLtoa_neg hv s (show 1 < 128 by decide)
  unfold sioPutl
  show (sioLtoa 128 v.toInt s 10).bind (sioPuts 128) = _
  rw [hs']
  exact sioPuts_isStr hstr (by simp)

/-- Read back, it is no number, or zero. -/
theorem parseDecimal_neg_char {v : ℤ} (hv : v < 0) :
    parseDecimal [digitChar (v.tmod 10)] ≠ some v := by
  obtain ⟨hlo, hhi⟩ := tmod_ten_range hv
  generalize v.tmod 10 = c at hlo hhi
  have hread : parseDecimal [digitChar c] = none ∨ parseDecimal [digitChar c] = some 0 := by
    interval_cases c <;> decide
  intro heq
  rcases hread with hnone | hzero
  · rw [hnone] at heq
    exact absurd heq (by simp)
  · rw [hzero, Option.some_inj] at heq
    omega

/-- **`sio_putl` writes the decimal representation exactly of the numbers that are not
negative**, and what it writes, read back, is the number for these alone. -/
theorem sioPutl_decimal_iff (v : Int64) (s : Cells UInt8) :
    (sioPutl v s = some (decimal v.toInt) ↔ 0 ≤ v.toInt) ∧
      ((sioPutl v s).bind parseDecimal = some v.toInt ↔ 0 ≤ v.toInt) := by
  by_cases hv : 0 ≤ v.toInt
  · rw [sioPutl_nonneg hv s]
    exact ⟨iff_of_true rfl hv, iff_of_true (parseDecimal_decimal v.toInt) hv⟩
  · have hneg : v.toInt < 0 := by omega
    rw [sioPutl_neg hneg s]
    refine ⟨iff_of_false ?_ hv, iff_of_false (parseDecimal_neg_char hneg) hv⟩
    intro heq
    exact decimal_ne_singleton hneg _ (Option.some_inj.mp heq).symm

/-- `sio_putl(-7)` writes `")"` and not `"-7"`. -/
theorem sioPutl_minus_seven :
    sioPutl (-7) (fun _ => 0) = some [41] ∧ decimal (Int64.toInt (-7)) = [45, 55] ∧
      (sioPutl (-7) (fun _ => 0)).bind parseDecimal = none := by
  decide

end ComputerScience.Sio
