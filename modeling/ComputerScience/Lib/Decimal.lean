/-
  ComputerScience.Lib.Decimal
  ───────────────────────────
  **THE DECIMAL REPRESENTATION OF A NUMBER**, as ASCII bytes.

  Digits are Mathlib's `Nat.digits`, the lowest first, with one digit for zero.

    • `lowDigits_of_lt`, `lowDigits_of_le` — the digits by division with remainder,
    • `decimalNat_length_le` — how long the representation is,
    • `parseDecimal_decimal` — read back, it is the number.
-/
import Mathlib.Data.Nat.Digits.Lemmas
import Mathlib.Tactic.IntervalCases
import Mathlib.Tactic.Ring

namespace ComputerScience.Lib

/-! ## §1. The representation, and reading it. -/

/-- The digits of a number in base `b`, the lowest first; zero has one digit. -/
def lowDigits (b n : ℕ) : List ℕ := if n = 0 then [0] else Nat.digits b n

/-- The decimal digits of a number, without leading zeros. -/
def decimalNat (n : ℕ) : List UInt8 := (lowDigits 10 n).reverse.map (fun d => UInt8.ofNat (48 + d))

/-- The decimal representation: an optional `-` and the digits. -/
def decimal (v : ℤ) : List UInt8 :=
  if v < 0 then 45 :: decimalNat v.natAbs else decimalNat v.natAbs

/-- One more decimal digit. -/
def readDigit (acc : Option ℕ) (c : UInt8) : Option ℕ :=
  acc.bind fun n => if 48 ≤ c.toNat ∧ c.toNat ≤ 57 then some (n * 10 + (c.toNat - 48)) else none

/-- One digit at least and nothing else. -/
def parseNat (cs : List UInt8) : Option ℕ := if cs = [] then none else cs.foldl readDigit (some 0)

/-- Decimal parsing. -/
def parseDecimal : List UInt8 → Option ℤ
  | 45 :: cs => (parseNat cs).map (fun n => -(n : ℤ))
  | cs => (parseNat cs).map (fun n => (n : ℤ))

/-! ## §2. Digits. -/

theorem lowDigits_of_lt {b n : ℕ} (h : n < b) : lowDigits b n = [n] := by
  unfold lowDigits
  split
  next hz => rw [hz]
  next hz => exact Nat.digits_of_lt b n hz h

theorem lowDigits_of_le {b n : ℕ} (hb : 2 ≤ b) (h : b ≤ n) :
    lowDigits b n = n % b :: lowDigits b (n / b) := by
  have hq : n / b ≠ 0 := by
    have := Nat.div_pos h (by omega)
    omega
  unfold lowDigits
  rw [if_neg (by omega), if_neg hq]
  exact Nat.digits_def' (by omega) (by omega)

theorem lowDigits_ne_nil (b n : ℕ) : lowDigits b n ≠ [] := by
  unfold lowDigits
  split
  next => simp
  next hz => exact Nat.digits_ne_nil_iff_ne_zero.mpr hz

theorem lowDigits_lt {b n d : ℕ} (hb : 2 ≤ b) (h : d ∈ lowDigits b n) : d < b := by
  unfold lowDigits at h
  split at h
  next =>
    rw [List.mem_singleton.mp h]
    omega
  next => exact Nat.digits_lt_base hb h

theorem ofDigits_lowDigits (b n : ℕ) : Nat.ofDigits b (lowDigits b n) = n := by
  unfold lowDigits
  split
  next hz => rw [hz, Nat.ofDigits_singleton]
  next => exact Nat.ofDigits_digits b n

/-- A number below `b^k` has at most `k` digits. -/
theorem lowDigits_length_le {b n k : ℕ} (hb : 2 ≤ b) (hk : 0 < k) (h : n < b ^ k) :
    (lowDigits b n).length ≤ k := by
  unfold lowDigits
  split
  next => exact hk
  next => exact (Nat.digits_length_le_iff hb n).mpr h

theorem decimalNat_length_le {n k : ℕ} (hk : 0 < k) (h : n < 10 ^ k) :
    (decimalNat n).length ≤ k := by
  unfold decimalNat
  rw [List.length_map, List.length_reverse]
  exact lowDigits_length_le (by decide) hk h

/-- The characters of a representation. -/
theorem digit_of_mem_decimalNat {n : ℕ} {c : UInt8} (h : c ∈ decimalNat n) :
    48 ≤ c.toNat ∧ c.toNat ≤ 57 := by
  obtain ⟨d, hd, rfl⟩ := List.mem_map.mp h
  have hlt : d < 10 := lowDigits_lt (by decide) (List.mem_reverse.mp hd)
  interval_cases d <;> decide

/-- The characters of a number. -/
theorem mem_decimal {v : ℤ} {c : UInt8} (h : c ∈ decimal v) :
    c = 45 ∨ (48 ≤ c.toNat ∧ c.toNat ≤ 57) := by
  rw [decimal] at h
  split at h
  · rcases List.mem_cons.mp h with rfl | h
    · exact Or.inl rfl
    · exact Or.inr (digit_of_mem_decimalNat h)
  · exact Or.inr (digit_of_mem_decimalNat h)

theorem not_mem_decimal {c : UInt8} (hsign : c ≠ 45) (hdigit : c.toNat < 48 ∨ 57 < c.toNat)
    (v : ℤ) : c ∉ decimal v := by
  intro h
  rcases mem_decimal h with heq | ⟨hlo, hhi⟩
  · exact hsign heq
  · omega

/-! ## §3. Reading back. -/

theorem readDigit_of_lt {d : ℕ} (h : d < 10) (n : ℕ) :
    readDigit (some n) (UInt8.ofNat (48 + d)) = some (n * 10 + d) := by
  interval_cases d <;> rfl

/-- The digits, the highest first, read back. -/
theorem foldl_readDigit {ds : List ℕ} (h : ∀ d ∈ ds, d < 10) :
    (ds.reverse.map (fun d => UInt8.ofNat (48 + d))).foldl readDigit (some 0) =
      some (Nat.ofDigits 10 ds) := by
  induction ds with
  | nil => rfl
  | cons d ds ih =>
      rw [List.reverse_cons, List.map_append, List.foldl_append,
        ih (fun x hx => h x (List.mem_cons_of_mem d hx))]
      show readDigit (some (Nat.ofDigits 10 ds)) (UInt8.ofNat (48 + d)) = _
      rw [readDigit_of_lt (h d List.mem_cons_self), Nat.ofDigits_cons]
      congr 1
      show Nat.ofDigits 10 ds * 10 + d = d + 10 * Nat.ofDigits 10 ds
      ring

theorem parseNat_decimalNat (n : ℕ) : parseNat (decimalNat n) = some n := by
  unfold parseNat decimalNat
  rw [if_neg (by simp [lowDigits_ne_nil]),
    foldl_readDigit (fun d hd => lowDigits_lt (by decide) hd), ofDigits_lowDigits]

/-- The representation of a natural number does not begin with a sign. -/
theorem parseDecimal_decimalNat (n : ℕ) :
    parseDecimal (decimalNat n) = (parseNat (decimalNat n)).map (fun n => (n : ℤ)) := by
  unfold parseDecimal
  split
  next cs hcs =>
    have hmem : (45 : UInt8) ∈ decimalNat n := hcs ▸ List.mem_cons_self
    obtain ⟨d, hd, hchar⟩ := List.mem_map.mp hmem
    have hlt : d < 10 := lowDigits_lt (by decide) (List.mem_reverse.mp hd)
    interval_cases d <;> simp at hchar
  next => rfl

/-- **The decimal representation, read back, is the number.** -/
theorem parseDecimal_decimal (v : ℤ) : parseDecimal (decimal v) = some v := by
  unfold decimal
  split
  next hv =>
    show (parseNat (decimalNat v.natAbs)).map (fun n => -(n : ℤ)) = some v
    rw [parseNat_decimalNat]
    show some (-(v.natAbs : ℤ)) = some v
    congr 1
    omega
  next hv =>
    rw [parseDecimal_decimalNat, parseNat_decimalNat]
    show some (v.natAbs : ℤ) = some v
    congr 1
    omega

/-- The character of a negative number is not its representation, by its length. -/
theorem decimal_ne_singleton {v : ℤ} (hv : v < 0) (c : UInt8) : decimal v ≠ [c] := by
  unfold decimal decimalNat
  rw [if_pos hv]
  intro heq
  have htail := (List.cons.inj heq).2
  rw [List.map_eq_nil_iff, List.reverse_eq_nil_iff] at htail
  exact lowDigits_ne_nil 10 _ htail

end ComputerScience.Lib
