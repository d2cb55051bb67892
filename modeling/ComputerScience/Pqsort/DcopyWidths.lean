/-
  ComputerScience.Pqsort.DcopyWidths
  ──────────────────────────────────
  **THE INTEGER WIDTHS OF `dcopy_parallel`** (`26-parallelism/pqsort/pqsort.c`).

  The sizes are `size_t`; the number of blocks, the block length and the offset product
  `b*npb` are `int`.  For which sizes do the blocks still tile the array?  With `q` blocks
  modulo `2^32`, of `nele / q` elements modulo `2^32` each, they do exactly if

      1 ≤ q < 2^31   and   (q = 1   or   (q - 1) * (nele / q mod 2^32) < 2^31)

  (the last offset is the largest product).  Otherwise there is no block, `nele / nblock`
  divides by zero, or the first offset that wraps is negative.

  Main results:
    • `tiles_of_fit`, `not_tiles_of_unfit` — the two directions,
    • `dcopy_tiles_iff` — the exact condition, and that tiles give a copy.
-/
import ComputerScience.Pqsort.Blocks
import Mathlib.Logic.Function.Basic
import Mathlib.Tactic.Ring
import Mathlib.Tactic.Linarith

namespace ComputerScience.Pqsort

open ComputerScience.Lib

/-! ## §1. The property and the condition. -/

/-- Position `p` belongs to the task `(src + b*npb, bnele)`. -/
def InBlock (nele blockSize b : ℕ) (p : ℤ) : Prop :=
  dcopyOffset nele blockSize b ≤ p ∧ p < dcopyOffset nele blockSize b + dcopyBnele nele blockSize b

/-- The loop runs for `b`. -/
def IsBlock (nele blockSize b : ℕ) : Prop := (b : ℤ) < dcopyNblock nele blockSize

/-- **The tasks tile the array**: `nele / nblock` is defined, the tasks are pairwise
disjoint, and they cover exactly the positions `0..nele-1`. -/
structure DcopyTiles (nele blockSize : ℕ) : Prop where
  nblock_ne : dcopyNblock nele blockSize ≠ 0
  disjoint : ∀ b c, IsBlock nele blockSize b → IsBlock nele blockSize c → b ≠ c →
    ∀ p, ¬ (InBlock nele blockSize b p ∧ InBlock nele blockSize c p)
  cover : ∀ p, (∃ b, IsBlock nele blockSize b ∧ InBlock nele blockSize b p) ↔ 0 ≤ p ∧ p < nele

/-- The number of blocks, modulo `2^32`. -/
def blockResidue (nele blockSize : ℕ) : ℕ := blockCount nele blockSize % 2 ^ 32

/-- **The condition on the sizes.** -/
def WidthsFit (nele blockSize : ℕ) : Prop :=
  1 ≤ blockResidue nele blockSize ∧ blockResidue nele blockSize < 2 ^ 31 ∧
    (blockResidue nele blockSize = 1 ∨
      (blockResidue nele blockSize - 1) * (nele / blockResidue nele blockSize % 2 ^ 32) < 2 ^ 31)

instance (nele blockSize : ℕ) : Decidable (WidthsFit nele blockSize) := by
  unfold WidthsFit
  exact inferInstance

/-! ## §2. The values the code computes. -/

section Values

variable {nele blockSize : ℕ}

/-- `nblock` is the residue if that is an `int`, and not positive otherwise. -/
theorem dcopyNblock_residue (hsum : nele + blockSize < 2 ^ 64) (hn : 1 ≤ nele) :
    dcopyNblock nele blockSize =
      if blockResidue nele blockSize < 2 ^ 31 then (blockResidue nele blockSize : ℤ)
      else blockResidue nele blockSize - 2 ^ 32 := by
  have hval : dcopyNblock nele blockSize = int32 (blockCount nele blockSize : ℕ) := by
    unfold dcopyNblock blockCount
    rw [show ((nele : ℤ) + blockSize - 1) = ((nele + blockSize - 1 : ℕ) : ℤ) by omega,
      sizeT_natCast (by omega)]
  have hres : ((blockCount nele blockSize : ℕ) : ℤ) % 2 ^ 32 = blockResidue nele blockSize := by
    unfold blockResidue
    omega
  have hwrap := int32_eq (blockCount nele blockSize : ℕ)
  rw [hval, hwrap, hres]
  by_cases hlt : blockResidue nele blockSize < 2 ^ 31
  · rw [if_pos hlt, if_pos (by omega)]
  · rw [if_neg hlt, if_neg (by omega)]

variable {k : ℕ} (hnb : dcopyNblock nele blockSize = k)
include hnb

theorem dcopyNpb_of (hk : k < 2 ^ 31) : dcopyNpb nele blockSize = int32 (nele / k : ℕ) := by
  unfold dcopyNpb
  rw [hnb, sizeT_natCast (by omega)]

/-- A block before the last one. -/
theorem dcopyBnele_of_lt {b : ℕ} (hb : b + 1 < k) :
    dcopyBnele nele blockSize b = sizeT (dcopyNpb nele blockSize) := by
  unfold dcopyBnele
  rw [hnb, if_pos (by omega)]

/-- The last block. -/
theorem dcopyBnele_last {b : ℕ} (hb : b + 1 = k) :
    dcopyBnele nele blockSize b = sizeT (nele - dcopyOffset nele blockSize b) := by
  unfold dcopyBnele
  rw [hnb, if_neg (by omega)]

/-- `npb` that is an `int` is the residue of the block length. -/
theorem dcopyNpb_fits (hk : k < 2 ^ 31) (hu : nele / k % 2 ^ 32 < 2 ^ 31) :
    dcopyNpb nele blockSize = (nele / k % 2 ^ 32 : ℕ) := by
  have hcast : ((nele / k : ℕ) : ℤ) % 2 ^ 32 = (nele / k % 2 ^ 32 : ℕ) := by omega
  have hwrap := int32_eq (nele / k : ℕ)
  rw [dcopyNpb_of hnb hk, hwrap, hcast, if_pos (by omega)]

/-- An `npb` that is not wraps to a negative number. -/
theorem dcopyNpb_wraps (hk : k < 2 ^ 31) (hu : 2 ^ 31 ≤ nele / k % 2 ^ 32) :
    dcopyNpb nele blockSize = (nele / k % 2 ^ 32 : ℕ) - 2 ^ 32 := by
  have hcast : ((nele / k : ℕ) : ℤ) % 2 ^ 32 = (nele / k % 2 ^ 32 : ℕ) := by omega
  have hwrap := int32_eq (nele / k : ℕ)
  rw [dcopyNpb_of hnb hk, hwrap, hcast, if_neg (by omega)]

end Values

/-! ## §3. Blocks at a fixed distance. -/

/-- The length of block `b` of `k`: the last one takes what is left. -/
def strideLen (n k u b : ℕ) : ℕ := if b + 1 < k then u else n - b * u

theorem stride_disjoint {n k u b c : ℕ} (hbc : b < c) (hc : c < k) :
    b * u + strideLen n k u b ≤ c * u := by
  unfold strideLen
  rw [if_pos (by omega), ← Nat.succ_mul]
  exact Nat.mul_le_mul_right u hbc

theorem stride_end_le {n k u b : ℕ} (hu : (k - 1) * u ≤ n) (hb : b < k) :
    b * u + strideLen n k u b ≤ n := by
  by_cases h : b + 1 < k
  · calc b * u + strideLen n k u b ≤ (k - 1) * u := stride_disjoint (by omega) (by omega)
      _ ≤ n := hu
  · obtain rfl : k = b + 1 := by omega
    unfold strideLen
    rw [if_neg h]
    rw [Nat.add_sub_cancel] at hu
    omega

/-- The block a position is in. -/
theorem stride_cover {n k u p : ℕ} (hk : 0 < k) (hp : p < n) :
    ∃ b < k, b * u ≤ p ∧ p < b * u + strideLen n k u b := by
  by_cases hlast : (k - 1) * u ≤ p
  · refine ⟨k - 1, by omega, hlast, ?_⟩
    unfold strideLen
    rw [if_neg (by omega)]
    omega
  · -- before the last block: divide
    have hupos : 0 < u := by
      rcases Nat.eq_zero_or_pos u with rfl | h
      · rw [Nat.mul_zero] at hlast
        omega
      · exact h
    have hb : p / u < k - 1 := (Nat.div_lt_iff_lt_mul hupos).mpr (by omega)
    refine ⟨p / u, by omega, Nat.div_mul_le_self p u, ?_⟩
    unfold strideLen
    rw [if_pos (by omega)]
    exact Nat.lt_div_mul_add hupos

/-! ## §4. Sizes that fit. -/

section Fit

variable {nele blockSize k : ℕ} (hnb : dcopyNblock nele blockSize = k) (hk : k < 2 ^ 31)
  (hfit : k = 1 ∨ (k - 1) * (nele / k % 2 ^ 32) < 2 ^ 31)
include hnb hk hfit

/-- No offset wraps. -/
theorem dcopyOffset_fit {b : ℕ} (hb : b < k) :
    dcopyOffset nele blockSize b = (b * (nele / k % 2 ^ 32) : ℕ) := by
  unfold dcopyOffset
  rcases hfit with rfl | hfit
  · obtain rfl : b = 0 := by omega
    simp [int32]
  · rcases Nat.eq_zero_or_pos b with rfl | hpos
    · simp [int32]
    · have hle : b * (nele / k % 2 ^ 32) ≤ (k - 1) * (nele / k % 2 ^ 32) :=
        Nat.mul_le_mul_right _ (by omega)
      have hone : nele / k % 2 ^ 32 ≤ b * (nele / k % 2 ^ 32) := Nat.le_mul_of_pos_left _ hpos
      rw [dcopyNpb_fits hnb hk (by omega), ← Int.natCast_mul]
      exact int32_natCast (by omega)

theorem dcopyBnele_fit (hsize : nele < 2 ^ 64) {b : ℕ} (hb : b < k) :
    dcopyBnele nele blockSize b = strideLen nele k (nele / k % 2 ^ 32) b := by
  unfold strideLen
  by_cases hlast : b + 1 < k
  · have hone : nele / k % 2 ^ 32 ≤ (k - 1) * (nele / k % 2 ^ 32) :=
      Nat.le_mul_of_pos_left _ (by omega)
    rw [if_pos hlast, dcopyBnele_of_lt hnb hlast, dcopyNpb_fits hnb hk (by omega)]
    exact sizeT_natCast (by omega)
  · have hle : b * (nele / k % 2 ^ 32) ≤ nele :=
      calc b * (nele / k % 2 ^ 32) ≤ k * (nele / k) :=
            Nat.mul_le_mul (by omega) (Nat.mod_le _ _)
        _ ≤ nele := Nat.mul_div_le nele k
    rw [if_neg hlast, dcopyBnele_last hnb (by omega), dcopyOffset_fit hnb hk hfit hb,
      ← Int.ofNat_sub hle]
    exact sizeT_natCast (by omega)

/-- **Sizes that fit give a tiling.** -/
theorem tiles_of_fit (hsize : nele < 2 ^ 64) (hpos : 1 ≤ k) : DcopyTiles nele blockSize := by
  have hu : (k - 1) * (nele / k % 2 ^ 32) ≤ nele :=
    calc (k - 1) * (nele / k % 2 ^ 32) ≤ k * (nele / k) :=
          Nat.mul_le_mul (by omega) (Nat.mod_le _ _)
      _ ≤ nele := Nat.mul_div_le nele k
  have hblock : ∀ b, IsBlock nele blockSize b ↔ b < k := fun b => by
    unfold IsBlock
    rw [hnb]
    omega
  have hin : ∀ b < k, ∀ p, InBlock nele blockSize b p ↔
      ((b * (nele / k % 2 ^ 32) : ℕ) : ℤ) ≤ p ∧ p < ((b * (nele / k % 2 ^ 32) : ℕ) : ℤ) +
        strideLen nele k (nele / k % 2 ^ 32) b := fun b hb p => by
    unfold InBlock
    rw [dcopyOffset_fit hnb hk hfit hb, dcopyBnele_fit hnb hk hfit hsize hb]
  have hapart : ∀ b c, b < c → c < k → ∀ p,
      ¬ (InBlock nele blockSize b p ∧ InBlock nele blockSize c p) := by
    intro b c hbc hc p hboth
    rw [hin b (by omega), hin c hc] at hboth
    have := stride_disjoint (n := nele) (u := nele / k % 2 ^ 32) hbc hc
    omega
  refine ⟨by omega, ?_, ?_⟩
  · intro b c hb hc hne p hboth
    rw [hblock] at hb hc
    rcases Nat.lt_or_gt_of_ne hne with hlt | hlt
    · exact hapart b c hlt hc p hboth
    · exact hapart c b hlt hb p hboth.symm
  · intro p
    constructor
    · rintro ⟨b, hb, hp⟩
      rw [hblock] at hb
      rw [hin b hb] at hp
      have := stride_end_le hu hb
      omega
    · rintro ⟨hp, hlt⟩
      obtain ⟨b, hb, hlo, hhi⟩ := stride_cover (n := nele) (k := k) (u := nele / k % 2 ^ 32)
        (p := p.toNat) hpos (by omega)
      exact ⟨b, (hblock b).mpr hb, (hin b hb p).mpr ⟨by omega, by omega⟩⟩

end Fit

/-! ## §5. Sizes that do not. -/

/-- A nonempty block at a negative offset leaves the array. -/
theorem not_tiles_of_negative {nele blockSize b : ℕ} (hb : IsBlock nele blockSize b)
    (hoff : dcopyOffset nele blockSize b < 0) (hlen : dcopyBnele nele blockSize b ≠ 0) :
    ¬ DcopyTiles nele blockSize := by
  intro htiles
  have hin : InBlock nele blockSize b (dcopyOffset nele blockSize b) := ⟨by omega, by omega⟩
  have := (htiles.cover _).mp ⟨b, hb, hin⟩
  omega

/-- `size_t` of a number that is not a multiple of `2^64`. -/
theorem sizeT_ne_zero {x : ℤ} (h : x % 2 ^ 64 ≠ 0) : sizeT x ≠ 0 := by
  unfold sizeT
  omega

/-- The first offset that wraps. -/
theorem dcopyOffset_wraps {nele blockSize u b : ℕ} (hnpb : dcopyNpb nele blockSize = u)
    (hlo : 2 ^ 31 ≤ b * u) (hhi : b * u < 2 ^ 32) : dcopyOffset nele blockSize b = (b * u : ℕ) - 2 ^ 32 := by
  have hwrap := int32_eq (b * u : ℕ)
  unfold dcopyOffset
  rw [hnpb, ← Int.natCast_mul, hwrap, Int.emod_eq_of_lt (by omega) (by omega), if_neg (by omega)]

/-- If the block at that offset is empty, it is the last one of a huge array. -/
theorem empty_wrapped {nele blockSize k u b : ℕ} (hnb : dcopyNblock nele blockSize = k)
    (hnpb : dcopyNpb nele blockSize = u) (hu : 0 < u) (hu' : u < 2 ^ 31) (hb : b < k)
    (hlo : 2 ^ 31 ≤ b * u) (hhi : b * u < 2 ^ 32)
    (hempty : dcopyBnele nele blockSize b = 0) : b + 1 = k ∧ 2 ^ 32 ≤ nele := by
  have hlast : b + 1 = k := by
    by_contra hne
    rw [dcopyBnele_of_lt hnb (by omega), hnpb, sizeT_natCast (by omega)] at hempty
    omega
  refine ⟨hlast, ?_⟩
  rw [dcopyBnele_last hnb hlast, dcopyOffset_wraps hnpb hlo hhi] at hempty
  by_contra hsmall
  exact sizeT_ne_zero (by omega) hempty

section Unfit

variable {nele blockSize k : ℕ} (hnb : dcopyNblock nele blockSize = k) (hk : k < 2 ^ 31)
  (htwo : 2 ≤ k)
include hnb hk htwo

/-- `npb` is negative: so is the offset of the second block. -/
theorem not_tiles_of_npb_wraps (hsize : nele + 1 < 2 ^ 64) (hu : 2 ^ 31 ≤ nele / k % 2 ^ 32) :
    ¬ DcopyTiles nele blockSize := by
  have hnpb := dcopyNpb_wraps hnb hk hu
  have hoff : dcopyOffset nele blockSize 1 = (nele / k % 2 ^ 32 : ℕ) - 2 ^ 32 := by
    unfold dcopyOffset
    rw [hnpb, Nat.cast_one, Int.one_mul]
    exact int32_of_range (by omega) (by omega)
  refine not_tiles_of_negative (b := 1) (by unfold IsBlock; rw [hnb]; omega) (by omega) ?_
  by_cases hlast : 1 + 1 < k
  · rw [dcopyBnele_of_lt hnb hlast, hnpb]
    exact sizeT_ne_zero (by omega)
  · -- two blocks: the second one is empty only for `2^64 - 1` elements
    obtain rfl : k = 2 := by omega
    rw [dcopyBnele_last hnb rfl, hoff]
    exact sizeT_ne_zero (by omega)

/-- An offset wraps: the first one that does is negative. -/
theorem not_tiles_of_offset_wraps (hu : nele / k % 2 ^ 32 < 2 ^ 31)
    (hbig : 2 ^ 31 ≤ (k - 1) * (nele / k % 2 ^ 32)) : ¬ DcopyTiles nele blockSize := by
  have hnpb := dcopyNpb_fits hnb hk hu
  generalize nele / k % 2 ^ 32 = u at hu hbig hnpb
  have hex : ∃ b, 2 ^ 31 ≤ b * u := ⟨k - 1, hbig⟩
  -- `b` is the first block whose offset wraps
  obtain ⟨b, hb, hmin⟩ : ∃ b, 2 ^ 31 ≤ b * u ∧ ∀ c < b, c * u < 2 ^ 31 :=
    ⟨Nat.find hex, Nat.find_spec hex, fun c hc => Nat.lt_of_not_le (Nat.find_min hex hc)⟩
  have hbk : b ≤ k - 1 := by
    by_contra hlt
    exact absurd hbig (Nat.not_le.mpr (hmin (k - 1) (by omega)))
  have hpos : b ≠ 0 := by
    rintro rfl
    rw [Nat.zero_mul] at hb
    omega
  have hprev := hmin (b - 1) (by omega)
  have hsucc : b * u = (b - 1) * u + u := by
    rw [← Nat.succ_mul, Nat.succ_eq_add_one, Nat.sub_add_cancel (by omega)]
  have hblock : IsBlock nele blockSize b := by
    unfold IsBlock
    rw [hnb]
    omega
  have hneg : dcopyOffset nele blockSize b < 0 := by
    rw [dcopyOffset_wraps hnpb hb (by omega)]
    omega
  by_cases hempty : dcopyBnele nele blockSize b = 0
  · -- the blocks before this one end at `b * u`, which nothing covers
    obtain ⟨hlast, hhuge⟩ :=
      empty_wrapped hnb hnpb (by omega) hu (by omega) hb (by omega) hempty
    intro htiles
    obtain ⟨d, hd, -, hhi⟩ := (htiles.cover (b * u : ℕ)).mpr ⟨by omega, by omega⟩
    have hdk : d < k := by
      unfold IsBlock at hd
      rw [hnb] at hd
      omega
    rcases Nat.lt_or_ge d b with hlt | hge
    · have hdoff : dcopyOffset nele blockSize d = (d * u : ℕ) := by
        have hsmall := hmin d hlt
        unfold dcopyOffset
        rw [hnpb, ← Int.natCast_mul]
        exact int32_natCast hsmall
      rw [hdoff, dcopyBnele_of_lt hnb (by omega), hnpb, sizeT_natCast (by omega)] at hhi
      have hmul : (d + 1) * u ≤ b * u := Nat.mul_le_mul_right u hlt
      rw [Nat.succ_mul] at hmul
      exact absurd hmul (Nat.not_le.mpr (by exact_mod_cast hhi))
    · obtain rfl : d = b := by omega
      rw [hempty, Nat.cast_zero, Int.add_zero] at hhi
      exact absurd (Int.natCast_nonneg (d * u)) (not_le.mpr (lt_trans hhi hneg))
  · exact not_tiles_of_negative hblock hneg hempty

end Unfit

/-- **Sizes that do not fit give no tiling.** -/
theorem not_tiles_of_unfit {nele blockSize : ℕ} (hn : 1 ≤ nele)
    (hb : 1 ≤ blockSize) (hsum : nele + blockSize < 2 ^ 64) (hunfit : ¬ WidthsFit nele blockSize) :
    ¬ DcopyTiles nele blockSize := by
  have hnb := dcopyNblock_residue hsum hn
  have hres : blockResidue nele blockSize < 2 ^ 32 := Nat.mod_lt _ (by decide)
  unfold WidthsFit at hunfit
  generalize blockResidue nele blockSize = k at hnb hunfit hres
  by_cases hk : 1 ≤ k ∧ k < 2 ^ 31
  · rw [if_pos hk.2] at hnb
    have hmany : 2 ≤ k ∧ 2 ^ 31 ≤ (k - 1) * (nele / k % 2 ^ 32) := by
      constructor
      · by_contra hone
        exact hunfit ⟨hk.1, hk.2, Or.inl (by omega)⟩
      · by_contra hsmall
        exact hunfit ⟨hk.1, hk.2, Or.inr (by omega)⟩
    by_cases hu : nele / k % 2 ^ 32 < 2 ^ 31
    · exact not_tiles_of_offset_wraps hnb hk.2 hmany.1 hu hmany.2
    · exact not_tiles_of_npb_wraps hnb hk.2 hmany.1 (by omega) (by omega)
  · -- `nblock` is not positive: a division by zero, or no block at all
    intro htiles
    have hle : dcopyNblock nele blockSize ≤ 0 := by
      rw [hnb]
      split <;> omega
    obtain ⟨b, hblock, -⟩ := (htiles.cover 0).mpr ⟨by omega, by omega⟩
    unfold IsBlock at hblock
    omega

/-! ## §6. The copy. -/

/-- `sizeof(data_t)` -/
def sizeofData : ℕ := 8

/-- The elements that `bcopy` copies in `copy_thread`: its byte count is a `size_t`. -/
def copyThreadCount (nele : ℕ) : ℕ := sizeT ((nele : ℤ) * sizeofData) / sizeofData

/-- One element is copied. -/
def copyAt {α : Type*} (src dest : ℤ → α) (p : ℤ) : ℤ → α := Function.update dest p (src p)

/-- The positions that the copy threads write. -/
def Written (nele blockSize : ℕ) (p : ℤ) : Prop :=
  ∃ b, IsBlock nele blockSize b ∧ dcopyOffset nele blockSize b ≤ p ∧
    p < dcopyOffset nele blockSize b + copyThreadCount (dcopyBnele nele blockSize b)

/-- Elements copied in any order. -/
theorem foldl_copyAt {α : Type*} (src : ℤ → α) (ps : List ℤ) (dest : ℤ → α) (p : ℤ) :
    (ps.foldl (copyAt src) dest) p = if p ∈ ps then src p else dest p := by
  induction ps generalizing dest with
  | nil => rfl
  | cons q ps ih =>
      rw [List.foldl_cons, ih]
      by_cases hps : p ∈ ps
      · rw [if_pos hps, if_pos (List.mem_cons_of_mem q hps)]
      · rw [if_neg hps]
        unfold copyAt
        by_cases hpq : p = q
        · rw [hpq, Function.update_self, if_pos List.mem_cons_self]
        · rw [Function.update_of_ne hpq, if_neg (by simp [hpq, hps])]

/-- No block is longer than the array. -/
theorem DcopyTiles.bnele_le {nele blockSize b : ℕ} (h : DcopyTiles nele blockSize)
    (hb : IsBlock nele blockSize b) : dcopyBnele nele blockSize b ≤ nele := by
  by_contra hlt
  have hfirst := (h.cover (dcopyOffset nele blockSize b)).mp
    ⟨b, hb, by unfold InBlock; omega⟩
  have hlast := (h.cover (dcopyOffset nele blockSize b + nele)).mp
    ⟨b, hb, by unfold InBlock; omega⟩
  omega

/-- **Tiles give a copy**: whatever the order in which the elements of all tasks are
copied, the destination ends with the source in it and is otherwise as it was. -/
theorem DcopyTiles.copies {α : Type*} {nele blockSize : ℕ} (h : DcopyTiles nele blockSize)
    (hbytes : nele * sizeofData < 2 ^ 64) (src dest : ℤ → α) (ps : List ℤ)
    (hps : ∀ p, p ∈ ps ↔ Written nele blockSize p) (p : ℤ) :
    (ps.foldl (copyAt src) dest) p = if 0 ≤ p ∧ p < nele then src p else dest p := by
  have hwritten : p ∈ ps ↔ 0 ≤ p ∧ p < nele := by
    rw [hps, ← h.cover]
    unfold Written InBlock
    refine exists_congr fun b => and_congr_right fun hb => ?_
    have hcount : copyThreadCount (dcopyBnele nele blockSize b) = dcopyBnele nele blockSize b := by
      have hle : dcopyBnele nele blockSize b * sizeofData < 2 ^ 64 :=
        lt_of_le_of_lt (Nat.mul_le_mul_right _ (h.bnele_le hb)) hbytes
      unfold copyThreadCount
      rw [← Int.natCast_mul, sizeT_natCast hle]
      exact Nat.mul_div_cancel _ (by decide)
    rw [hcount]
  rw [foldl_copyAt]
  simp only [hwritten]

/-! ## §7. The exact condition. -/

/-- **When `dcopy_parallel` tiles its array**: for all sizes with `nele + block_size` in
range, the tasks tile the array if and only if the widths fit; and for arrays that exist
(their bytes can be counted by a `size_t`), tasks that tile make a copy, in any order. -/
theorem dcopy_tiles_iff (nele blockSize : ℕ) (hn : 1 ≤ nele) (hb : 1 ≤ blockSize)
    (hsum : nele + blockSize < 2 ^ 64) :
    (DcopyTiles nele blockSize ↔ WidthsFit nele blockSize) ∧
    (WidthsFit nele blockSize → nele * sizeofData < 2 ^ 64 →
      ∀ (src dest : ℤ → UInt64) (ps : List ℤ), (∀ p, p ∈ ps ↔ Written nele blockSize p) →
        ∀ p, (ps.foldl (copyAt src) dest) p = if 0 ≤ p ∧ p < nele then src p else dest p) := by
  have hfit : WidthsFit nele blockSize → DcopyTiles nele blockSize := by
    rintro ⟨hlo, hhi, hfit⟩
    have hnb := dcopyNblock_residue hsum hn
    rw [if_pos hhi] at hnb
    exact tiles_of_fit hnb hhi hfit (by omega) hlo
  refine ⟨⟨fun htiles => ?_, hfit⟩, fun h hbytes src dest ps hps p =>
    (hfit h).copies hbytes src dest ps hps p⟩
  by_contra hunfit
  exact not_tiles_of_unfit hn hb hsum hunfit htiles

/-- `2^32` elements in blocks of `2^28`: the offset of block `8` is `-2^31`. -/
theorem dcopy_tiles_wrap : dcopyNblock (2 ^ 32) (2 ^ 28) = 16 ∧
    dcopyOffset (2 ^ 32) (2 ^ 28) 8 = -2 ^ 31 ∧ ¬ DcopyTiles (2 ^ 32) (2 ^ 28) := by
  have hnb : dcopyNblock (2 ^ 32) (2 ^ 28) = 16 := by decide
  have hoff : dcopyOffset (2 ^ 32) (2 ^ 28) 8 = -2 ^ 31 := by decide
  refine ⟨hnb, hoff, not_tiles_of_negative (b := 8) ?_ ?_ (by decide)⟩
  · unfold IsBlock
    rw [hnb]
    decide
  · rw [hoff]
    decide

theorem dcopy_tiles_million : WidthsFit (2 ^ 20) 1000 ∧ DcopyTiles (2 ^ 20) 1000 :=
  have hfit : WidthsFit (2 ^ 20) 1000 := by decide
  ⟨hfit, (dcopy_tiles_iff (2 ^ 20) 1000 (by decide) (by decide) (by decide)).1.mpr hfit⟩

end ComputerScience.Pqsort
