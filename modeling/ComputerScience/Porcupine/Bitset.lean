/-
  ComputerScience.Porcupine.Bitset
  ────────────────────────────────
  **THE BIT SETS OF THE CHECKER** (`porcupine/bitset.go`).

  A set of operations is a slice of 64-bit words; operation `pos` is bit `pos % 64` of word
  `pos / 64`.  An index behind the slice panics.

  Main results:
    • `set_spec` — `set` adds one position,
    • `clear_set` — `clear` takes it out again and gives back the words there were,
    • `equals_iff` — `equals` compares the words.
-/
import ComputerScience.Lib.Word
import Mathlib.Data.List.Basic

namespace ComputerScience.Porcupine

/-! ## §1. The operations. -/

/-- Bits 0-63 are in the first word, the next ones in the second, and so on. -/
abbrev Bitset := List UInt64

/-- `newBitset(bits)` -/
def newBitset (bits : ℕ) : Bitset :=
  let extra := if bits % 64 ≠ 0 then 1 else 0
  List.replicate (bits / 64 + extra) 0

/-- `1 << minor` -/
def bitMask (minor : ℕ) : UInt64 := 1 <<< UInt64.ofNat minor

/-- `bitsetIndex(pos)` -/
def bitsetIndex (pos : ℕ) : ℕ × ℕ := (pos / 64, pos % 64)

namespace Bitset

/-- `b.set(pos)`: `b[major] |= (1 << minor)` -/
def set (b : Bitset) (pos : ℕ) : Option Bitset :=
  let (major, minor) := bitsetIndex pos
  b[major]?.map fun v => List.set b major (v ||| bitMask minor)

/-- `b.clear(pos)`: `b[major] &^= (1 << minor)` -/
def clear (b : Bitset) (pos : ℕ) : Option Bitset :=
  let (major, minor) := bitsetIndex pos
  b[major]?.map fun v => List.set b major (v &&& ~~~ bitMask minor)

/-- `b.get(pos)` -/
def get (b : Bitset) (pos : ℕ) : Option Bool :=
  let (major, minor) := bitsetIndex pos
  b[major]?.map fun v => decide (v &&& bitMask minor ≠ 0)

/-- `bits.OnesCount64` -/
def onesCount64 (v : UInt64) : ℕ := (List.range 64).countP fun i => v.toNat.testBit i

/-- `b.popcnt()` -/
def popcnt (b : Bitset) : ℕ := b.foldl (fun total v => total + onesCount64 v) 0

/-- `b.hash()` -/
def hash (b : Bitset) : UInt64 := b.foldl (fun hash v => hash ^^^ v) (UInt64.ofNat b.popcnt)

/-- `b.equals(b2)` -/
def equals (b b2 : Bitset) : Bool :=
  if b.length ≠ b2.length then false
  else (List.range b.length).all fun i => decide (b[i]? = b2[i]?)

/-! ## §2. One word. -/

/-- Only the bit it is made of is set in a mask. -/
theorem getLsbD_bitMask {m : ℕ} (hm : m < 64) (i : ℕ) :
    (bitMask m).toBitVec.getLsbD i = decide (i = m) := by
  have hval : (bitMask m).toBitVec = BitVec.twoPow 64 m := by
    apply BitVec.eq_of_toNat_eq
    rw [BitVec.toNat_twoPow]
    show (bitMask m).toNat = 2 ^ m % 2 ^ 64
    rw [bitMask, UInt64.toNat_shiftLeft, UInt64.toNat_ofNat', UInt64.toNat_one, Nat.one_shiftLeft,
      Nat.mod_eq_of_lt (show m < 2 ^ 64 by omega), Nat.mod_eq_of_lt hm]
  rw [hval, BitVec.getLsbD_twoPow]
  simp [hm, eq_comm]

/-- The bit that a mask asks for. -/
theorem and_bitMask_ne_zero (v : UInt64) {m : ℕ} (hm : m < 64) :
    v &&& bitMask m ≠ 0 ↔ v.toBitVec.getLsbD m = true := by
  constructor
  · intro hne
    by_contra hbit
    rw [Bool.not_eq_true] at hbit
    apply hne
    apply UInt64.toBitVec_inj.mp
    apply BitVec.eq_of_getLsbD_eq
    intro i _
    rw [UInt64.toBitVec_and, BitVec.getLsbD_and, getLsbD_bitMask hm]
    by_cases hi : i = m
    · rw [hi, hbit]
      simp
    · simp [hi]
  · intro hbit hzero
    have hand : (v &&& bitMask m).toBitVec.getLsbD m = true := by
      rw [UInt64.toBitVec_and, BitVec.getLsbD_and, getLsbD_bitMask hm, hbit]
      simp
    rw [hzero] at hand
    simp at hand

theorem getLsbD_or_bitMask (v : UInt64) {m : ℕ} (hm : m < 64) (i : ℕ) :
    (v ||| bitMask m).toBitVec.getLsbD i = (v.toBitVec.getLsbD i || decide (i = m)) := by
  rw [UInt64.toBitVec_or, BitVec.getLsbD_or, getLsbD_bitMask hm]

/-- A bit that was not set is set and cleared. -/
theorem or_and_not_bitMask {v : UInt64} {m : ℕ} (hm : m < 64)
    (hbit : v.toBitVec.getLsbD m = false) : (v ||| bitMask m) &&& ~~~ bitMask m = v := by
  apply UInt64.toBitVec_inj.mp
  apply BitVec.eq_of_getLsbD_eq
  intro i hi
  rw [UInt64.toBitVec_and, BitVec.getLsbD_and, getLsbD_or_bitMask v hm, UInt64.toBitVec_not,
    BitVec.getLsbD_not, getLsbD_bitMask hm]
  by_cases him : i = m
  · rw [him, hbit]
    simp
  · simp [hi, him]

/-! ## §3. Sets. -/

/-- `pos` is in the set. -/
def has (b : Bitset) (pos : ℕ) : Bool := b.get pos == some true

theorem has_eq (b : Bitset) (pos : ℕ) :
    b.has pos = ((b[pos / 64]?.getD 0).toBitVec.getLsbD (pos % 64)) := by
  have hm : pos % 64 < 64 := Nat.mod_lt _ (by decide)
  unfold has get bitsetIndex
  cases hv : b[pos / 64]? with
  | none => simp [hv]
  | some v =>
      simp only [hv, Option.map_some, Option.getD_some]
      rw [Bool.eq_iff_iff, ← and_bitMask_ne_zero v hm]
      simp

theorem length_newBitset {n pos : ℕ} (h : pos < n) : pos / 64 < (newBitset n).length := by
  unfold newBitset
  rw [List.length_replicate]
  split <;> omega

theorem has_newBitset (n pos : ℕ) : (newBitset n).has pos = false := by
  rw [has_eq]
  have hzero : ∀ c, ((List.replicate c (0 : UInt64))[pos / 64]?.getD 0) = 0 := by
    intro c
    rw [List.getElem?_replicate]
    split <;> rfl
  rw [newBitset, hzero]
  exact BitVec.getLsbD_zero

/-- **`set` adds one position.** -/
theorem set_spec {b : Bitset} {pos : ℕ} (h : pos / 64 < b.length) :
    ∃ b', b.set pos = some b' ∧ b'.length = b.length ∧
      ∀ i, b'.has i = (b.has i || decide (i = pos)) := by
  have hm : pos % 64 < 64 := Nat.mod_lt _ (by decide)
  refine ⟨List.set b (pos / 64) (b[pos / 64] ||| bitMask (pos % 64)), ?_, List.length_set, ?_⟩
  · simp [set, bitsetIndex, h]
  · intro i
    rw [has_eq, has_eq, List.getElem?_set]
    by_cases hi : pos / 64 = i / 64
    · rw [if_pos hi, if_pos h, ← hi, List.getElem?_eq_getElem h, Option.getD_some, Option.getD_some,
        getLsbD_or_bitMask _ hm]
      have : i % 64 = pos % 64 ↔ i = pos := by omega
      simp [this]
    · rw [if_neg hi]
      have : i ≠ pos := by
        rintro rfl
        exact hi rfl
      simp [this]

theorem set_eq_some {b b' : Bitset} {pos : ℕ} (h : b.set pos = some b') :
    b'.length = b.length ∧ ∀ i, b'.has i = (b.has i || decide (i = pos)) := by
  obtain ⟨v, hv, -⟩ := Option.map_eq_some_iff.mp h
  obtain ⟨b'', hset, hspec⟩ := set_spec (List.getElem?_eq_some_iff.mp hv).1
  obtain rfl : b'' = b' := Option.some.inj (hset.symm.trans h)
  exact hspec

/-- **`clear` undoes `set`.** -/
theorem clear_set {b b' : Bitset} {pos : ℕ} (h : b.set pos = some b') (hnew : b.has pos = false) :
    b'.clear pos = some b := by
  have hm : pos % 64 < 64 := Nat.mod_lt _ (by decide)
  obtain ⟨v, hv, rfl⟩ := Option.map_eq_some_iff.mp h
  have hlt := (List.getElem?_eq_some_iff.mp hv).1
  rw [has_eq] at hnew
  change b[pos / 64]? = some v at hv
  rw [hv, Option.getD_some] at hnew
  have hback : List.set b (pos / 64) v = b := by
    obtain ⟨_, rfl⟩ := List.getElem?_eq_some_iff.mp hv
    exact List.set_getElem_self _
  simp only [clear, bitsetIndex] at hlt ⊢
  rw [List.getElem?_set_self hlt, Option.map_some, List.set_set, or_and_not_bitMask hm hnew, hback]

/-- **`equals` compares the words.** -/
theorem equals_iff {b b2 : Bitset} : b.equals b2 = true ↔ b = b2 := by
  unfold equals
  constructor
  · intro h
    split at h
    · cases h
    · next hlen =>
        rw [not_not] at hlen
        apply List.ext_getElem?
        intro i
        by_cases hi : i < b.length
        · have := List.all_eq_true.mp h i (List.mem_range.mpr hi)
          exact of_decide_eq_true this
        · rw [List.getElem?_eq_none (by omega), List.getElem?_eq_none (by omega)]
  · rintro rfl
    simp

end Bitset

end ComputerScience.Porcupine
