/-
  ComputerScience.Lib.Word
  ────────────────────────
  **MACHINE WORDS: the orders of unsigned words and C's integer conversions.**

  `int32`, `sizeT` and `ssizeT` are the conversions the C compiler inserts when a value is
  assigned to an `int`, to a `size_t` or to a `ssize_t`.
-/
import Mathlib.Order.Defs.LinearOrder
import Mathlib.Algebra.Ring.Int.Defs
import Mathlib.Algebra.Ring.Nat

namespace ComputerScience.Lib

/-! ## §1. Unsigned words are linearly ordered. -/

instance instLinearOrderUInt8 : LinearOrder UInt8 where
  le_refl := UInt8.le_refl
  le_trans _ _ _ := UInt8.le_trans
  le_antisymm _ _ := UInt8.le_antisymm
  le_total := UInt8.le_total
  lt_iff_le_not_ge a b := by
    rw [UInt8.le_iff_toNat_le, UInt8.le_iff_toNat_le, UInt8.lt_iff_toNat_lt]
    omega
  toDecidableLE := fun _ _ => inferInstance

instance instLinearOrderUInt64 : LinearOrder UInt64 where
  le_refl := UInt64.le_refl
  le_trans _ _ _ := UInt64.le_trans
  le_antisymm _ _ := UInt64.le_antisymm
  le_total := UInt64.le_total
  lt_iff_le_not_ge a b := by
    rw [UInt64.le_iff_toNat_le, UInt64.le_iff_toNat_le, UInt64.lt_iff_toNat_lt]
    omega
  toDecidableLE := fun _ _ => inferInstance

/-! ## §2. Conversions to `int` and `size_t`. -/

/-- The value an `int` gets from a wider integer (two's complement wrap). -/
def int32 (x : ℤ) : ℤ := x.bmod (2 ^ 32)

/-- The value a `size_t` gets from an integer. -/
def sizeT (x : ℤ) : ℕ := (x % 2 ^ 64).toNat

/-- The value a `ssize_t` gets from a `size_t`. -/
def ssizeT (x : ℕ) : ℤ := (x : ℤ).bmod (2 ^ 64)

/-- The largest `int`. -/
def INT_MAX : ℕ := 2 ^ 31 - 1

/-- The wrap, by the residue modulo `2^32`. -/
theorem int32_eq (x : ℤ) :
    int32 x = if x % 2 ^ 32 < 2 ^ 31 then x % 2 ^ 32 else x % 2 ^ 32 - 2 ^ 32 := rfl

theorem int32_of_range {x : ℤ} (hlo : -2 ^ 31 ≤ x) (hhi : x < 2 ^ 31) : int32 x = x := by
  unfold int32
  apply Int.bmod_eq_of_le
  · show -((4294967296 : ℤ) / 2) ≤ x
    omega
  · show x < ((4294967296 : ℤ) + 1) / 2
    omega

theorem int32_natCast {x : ℕ} (h : x < 2 ^ 31) : int32 x = x :=
  int32_of_range (by omega) (by omega)

theorem sizeT_of_range {x : ℤ} (hlo : 0 ≤ x) (hhi : x < 2 ^ 64) : sizeT x = x.toNat := by
  unfold sizeT
  rw [Int.emod_eq_of_lt hlo hhi]

theorem sizeT_natCast {x : ℕ} (h : x < 2 ^ 64) : sizeT x = x := by
  rw [sizeT_of_range (by omega) (by omega)]
  exact Int.toNat_natCast x

theorem ssizeT_natCast {x : ℕ} (h : x < 2 ^ 63) : ssizeT x = x := by
  unfold ssizeT
  apply Int.bmod_eq_of_le
  · show -((18446744073709551616 : ℤ) / 2) ≤ x
    omega
  · show (x : ℤ) < ((18446744073709551616 : ℤ) + 1) / 2
    omega

end ComputerScience.Lib
