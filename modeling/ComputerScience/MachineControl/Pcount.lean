/-
  ComputerScience.MachineControl.Pcount
  ─────────────────────────────────────
  **NINE WAYS TO COUNT ONE BITS** (`06-machine-control/loop.c` and
  `07-machine-procedures/recurse.c`).

  The routines show how a compiler translates loops.  Those that shift `x` until it is zero,

      pcount_do    pcount_goto       pcount_while   pcount_goto_dw   pcount_goto_jtm   pcount_r

  keep `result` and the ones left in `x` in balance; those that count over the 64 positions,

      pcount_for   pcount_for_goto_dw   pcount_for_goto_jtm

  have in `result` the ones below the position.  The goto forms are blocks between labels
  (`Lib.Goto`); a `long` and an `unsigned long` have 64 bits, an `unsigned` has 32.

  Main results:
    • `ones_shift` — the ones of `x` are its lowest bit and those of `x >> 1`,
    • `pcount_returns` — all nine return the number of ones.
-/
import ComputerScience.Lib.Goto
import ComputerScience.Lib.Loop

namespace ComputerScience.MachineControl

open ComputerScience.Lib

/-! ## §1. The loops. -/

/-- `x >> 1` is smaller unless `x` is zero. -/
theorem shift_lt {x : BitVec 64} (h : x ≠ 0) : (x >>> 1).toNat < x.toNat := by
  have hne : x.toNat ≠ 0 := fun h0 => h (BitVec.eq_of_toNat_eq h0)
  rw [BitVec.toNat_ushiftRight, Nat.shiftRight_eq_div_pow]
  omega

/-- The variables of a loop that shifts `x`. -/
structure Shifting where
  result : BitVec 64
  x : BitVec 64
  deriving DecidableEq, Repr

/-- `result += x & 0x1; x >>= 1;` -/
def Shifting.body (s : Shifting) : Shifting := ⟨s.result + (s.x &&& 0x1#64), s.x >>> 1⟩

/-- The `do … while (x)` of `pcount_do`. -/
def doLoop (s : Shifting) : Shifting :=
  if s.body.x ≠ 0 then doLoop s.body else s.body
termination_by s.x.toNat
decreasing_by
  rename_i h
  refine shift_lt ?_
  intro h0
  apply h
  show s.x >>> 1 = 0
  rw [h0]
  rfl

def pcountDo (x : BitVec 64) : BitVec 64 := (doLoop ⟨0, x⟩).result

/-- The `while (x)` of `pcount_while`. -/
def whileLoop (s : Shifting) : Shifting :=
  if s.x ≠ 0 then whileLoop s.body else s
termination_by s.x.toNat
decreasing_by
  rename_i h
  exact shift_lt h

def pcountWhile (x : BitVec 64) : BitVec 64 := (whileLoop ⟨0, x⟩).result

/-- `pcount_r` -/
def pcountR (x : BitVec 64) : BitVec 64 :=
  if x = 0 then 0 else (x &&& 1#64) + pcountR (x >>> 1)
termination_by x.toNat
decreasing_by
  rename_i h
  exact shift_lt h

/-- `WSIZE` -/
def wsize : ℕ := 8 * 8

/-- `unsigned bit = (x >> i) & 0x1; result += bit;` -/
def addBit (x : BitVec 64) (i : ℕ) (result : BitVec 64) : BitVec 64 :=
  let bit : BitVec 32 := ((x >>> i) &&& 0x1#64).setWidth 32
  result + bit.setWidth 64

def pcountFor (x : BitVec 64) : Option (BitVec 64) :=
  forLoop 0 wsize 1 (fun i result => some (addBit x i result)) 0

/-! ## §2. The goto forms. -/

/-- The labels of `pcount_goto`, with its beginning. -/
inductive GotoLabel where
  | entry
  | loop
  deriving DecidableEq, Repr

def gotoBlock : GotoLabel → Shifting → Shifting × Option GotoLabel
  | .entry, s => ({ s with result := 0 }, some .loop)
  | .loop, s => (s.body, if s.body.x ≠ 0 then some .loop else none)

/-- `pcount_goto` -/
def pcountGoto (fuel : ℕ) (x : BitVec 64) : Option (BitVec 64) :=
  (Goto.run gotoBlock fuel .entry ⟨0, x⟩).map Shifting.result

/-- The labels of the guarded do-while forms. -/
inductive DwLabel where
  | entry
  | loop
  | done
  deriving DecidableEq, Repr

def gotoDwBlock : DwLabel → Shifting → Shifting × Option DwLabel
  | .entry, s => ({ s with result := 0 }, if s.x = 0 then some .done else some .loop)
  | .loop, s => (s.body, if s.body.x ≠ 0 then some .loop else some .done)
  | .done, s => (s, none)

/-- `pcount_goto_dw` -/
def pcountGotoDw (fuel : ℕ) (x : BitVec 64) : Option (BitVec 64) :=
  (Goto.run gotoDwBlock fuel .entry ⟨0, x⟩).map Shifting.result

/-- The labels of the jump-to-middle forms. -/
inductive JtmLabel where
  | entry
  | loop
  | test
  deriving DecidableEq, Repr

def gotoJtmBlock : JtmLabel → Shifting → Shifting × Option JtmLabel
  | .entry, s => ({ s with result := 0 }, some .test)
  | .loop, s => (s.body, some .test)
  | .test, s => (s, if s.x ≠ 0 then some .loop else none)

/-- `pcount_goto_jtm` -/
def pcountGotoJtm (fuel : ℕ) (x : BitVec 64) : Option (BitVec 64) :=
  (Goto.run gotoJtmBlock fuel .entry ⟨0, x⟩).map Shifting.result

/-- The variables of a loop that counts positions. -/
structure Counting where
  i : ℕ
  result : BitVec 64
  deriving DecidableEq, Repr

/-- The body of the loop and `i++`. -/
def Counting.body (x : BitVec 64) (s : Counting) : Counting := ⟨s.i + 1, addBit x s.i s.result⟩

def forGotoDwBlock (x : BitVec 64) : DwLabel → Counting → Counting × Option DwLabel
  | .entry, _ => (⟨0, 0⟩, if ¬ 0 < wsize then some .done else some .loop)
  | .loop, s => (s.body x, if (s.body x).i < wsize then some .loop else some .done)
  | .done, s => (s, none)

/-- `pcount_for_goto_dw` -/
def pcountForGotoDw (fuel : ℕ) (x : BitVec 64) : Option (BitVec 64) :=
  (Goto.run (forGotoDwBlock x) fuel .entry ⟨0, 0⟩).map Counting.result

def forGotoJtmBlock (x : BitVec 64) : JtmLabel → Counting → Counting × Option JtmLabel
  | .entry, _ => (⟨0, 0⟩, some .test)
  | .loop, s => (s.body x, some .test)
  | .test, s => (s, if s.i < wsize then some .loop else none)

/-- `pcount_for_goto_jtm` -/
def pcountForGotoJtm (fuel : ℕ) (x : BitVec 64) : Option (BitVec 64) :=
  (Goto.run (forGotoJtmBlock x) fuel .entry ⟨0, 0⟩).map Counting.result

/-! ## §3. Counting ones. -/

/-- The number of ones of `x` below position `k`. -/
def onesBelow (x : BitVec 64) (k : ℕ) : ℕ := (List.range k).countP fun i => x.getLsbD i

/-- **The number of one bits.** -/
def ones (x : BitVec 64) : ℕ := onesBelow x 64

theorem onesBelow_succ (x : BitVec 64) (k : ℕ) :
    onesBelow x (k + 1) = onesBelow x k + (x.getLsbD k).toNat := by
  unfold onesBelow
  rw [List.range_succ, List.countP_append, List.countP_singleton]
  cases x.getLsbD k <;> rfl

theorem onesBelow_le (x : BitVec 64) (k : ℕ) : onesBelow x k ≤ k := by
  unfold onesBelow
  exact List.countP_le_length.trans (by simp)

theorem ones_zero : ones 0 = 0 := by
  unfold ones onesBelow
  rw [List.countP_eq_zero]
  simp

/-- The first position apart from the others. -/
theorem onesBelow_shift (x : BitVec 64) (k : ℕ) :
    onesBelow x (k + 1) = (x.getLsbD 0).toNat + onesBelow (x >>> 1) k := by
  induction k with
  | zero =>
      rw [onesBelow_succ]
      exact Nat.zero_add _
  | succ k ih =>
      rw [onesBelow_succ, ih, onesBelow_succ (x >>> 1) k, BitVec.getLsbD_ushiftRight,
        Nat.add_comm 1 k, Nat.add_assoc]

/-- **The ones of `x`** are its lowest bit and the ones of `x >> 1`. -/
theorem ones_shift (x : BitVec 64) : ones x = (x.getLsbD 0).toNat + ones (x >>> 1) := by
  have hall : ∀ y : BitVec 64, onesBelow y 65 = ones y := by
    intro y
    rw [onesBelow_succ, BitVec.getLsbD_of_ge y 64 (Nat.le_refl 64)]
    rfl
  rw [← hall x, onesBelow_shift]
  rfl

/-- The bit that a turn adds. -/
theorem low_bit (x : BitVec 64) : x &&& 1#64 = BitVec.ofNat 64 (x.getLsbD 0).toNat := by
  rw [BitVec.and_one_eq_setWidth_ofBool_getLsbD]
  cases x.getLsbD 0 <;> rfl

/-- `result` and the ones that are left. -/
theorem Shifting.body_ones (s : Shifting) :
    s.body.result + BitVec.ofNat 64 (ones s.body.x) = s.result + BitVec.ofNat 64 (ones s.x) := by
  show s.result + (s.x &&& 1#64) + BitVec.ofNat 64 (ones (s.x >>> 1)) = _
  rw [ones_shift s.x, low_bit, BitVec.ofNat_add, BitVec.add_assoc]

/-- The unsigned `bit` is the bit. -/
theorem addBit_eq (x : BitVec 64) {i : ℕ} {result : BitVec 64}
    (h : result = BitVec.ofNat 64 (onesBelow x i)) :
    addBit x i result = BitVec.ofNat 64 (onesBelow x (i + 1)) := by
  unfold addBit
  rw [low_bit, BitVec.getLsbD_ushiftRight, onesBelow_succ, BitVec.ofNat_add, ← h, Nat.add_zero]
  cases x.getLsbD i <;> rfl

/-! ## §4. The loops. -/

theorem doLoop_result (s : Shifting) :
    (doLoop s).result = s.result + BitVec.ofNat 64 (ones s.x) := by
  fun_induction doLoop s with
  | case1 s hne ih => rw [ih, s.body_ones]
  | case2 s hzero =>
      rw [← s.body_ones, not_not.mp hzero, ones_zero]
      simp

theorem whileLoop_result (s : Shifting) :
    (whileLoop s).result = s.result + BitVec.ofNat 64 (ones s.x) := by
  fun_induction whileLoop s with
  | case1 s hne ih => rw [ih, s.body_ones]
  | case2 s hzero =>
      rw [not_not.mp hzero, ones_zero]
      simp

theorem pcountR_eq (x : BitVec 64) : pcountR x = BitVec.ofNat 64 (ones x) := by
  fun_induction pcountR x with
  | case1 => rw [ones_zero]; rfl
  | case2 x hne ih => rw [ih, ones_shift x, low_bit, BitVec.ofNat_add]

theorem pcountFor_eq (x : BitVec 64) : pcountFor x = some (BitVec.ofNat 64 (ones x)) := by
  have hloop : ∃ result, pcountFor x = some result ∧
      result = BitVec.ofNat 64 (onesBelow x wsize) := by
    refine forLoop_rule_one (fun i (result : BitVec 64) => result = BitVec.ofNat 64 (onesBelow x i))
      (Nat.zero_le wsize) rfl ?_
    intro i result _ _ hresult
    exact ⟨_, rfl, addBit_eq x hresult⟩
  obtain ⟨result, hrun, rfl⟩ := hloop
  exact hrun

/-! ## §5. The goto forms. -/

/-- What a goto form that shifts has to establish. -/
def Shifted (x : BitVec 64) (s : Shifting) : Prop :=
  s.result + BitVec.ofNat 64 (ones s.x) = BitVec.ofNat 64 (ones x)

theorem Shifted.body {x : BitVec 64} {s : Shifting} (h : Shifted x s) : Shifted x s.body :=
  s.body_ones.trans h

theorem Shifted.start (x : BitVec 64) : Shifted x ⟨0, x⟩ := by
  simp [Shifted]

/-- When `x` is used up the result is complete. -/
theorem Shifted.result {x : BitVec 64} {s : Shifting} (h : Shifted x s) (hzero : s.x = 0) :
    s.result = BitVec.ofNat 64 (ones x) := by
  unfold Shifted at h
  rw [hzero, ones_zero] at h
  simpa using h

/-- A turn that leaves something of `x` makes it smaller. -/
theorem Shifting.body_lt {s : Shifting} (h : s.body.x ≠ 0) : s.body.x.toNat < s.x.toNat := by
  refine shift_lt ?_
  intro h0
  apply h
  show s.x >>> 1 = 0
  rw [h0]
  rfl

/-- The assertions of `pcount_goto`. -/
def GotoLabel.At (x : BitVec 64) : GotoLabel → Shifting → Prop
  | .entry, s => s.x = x
  | .loop, s => Shifted x s

/-- The number of blocks that are left, at most. -/
def GotoLabel.left : GotoLabel → Shifting → ℕ
  | .entry, s => s.x.toNat + 2
  | .loop, s => s.x.toNat + 1

theorem pcountGoto_eq (x : BitVec 64) {fuel : ℕ} (hfuel : x.toNat + 2 < fuel) :
    pcountGoto fuel x = some (BitVec.ofNat 64 (ones x)) := by
  unfold pcountGoto
  refine Goto.run_value (I := GotoLabel.At x) GotoLabel.left ?_ ?_ (l := .entry) (s := ⟨0, x⟩) rfl
    hfuel
  · intro l s l' hI hgo
    cases l with
    | entry =>
        cases hgo
        obtain rfl : s.x = x := hI
        exact ⟨Shifted.start s.x, Nat.lt_succ_self _⟩
    | loop =>
        simp only [gotoBlock] at hgo
        split at hgo
        next hne =>
          cases hgo
          exact ⟨Shifted.body hI, Nat.succ_lt_succ (Shifting.body_lt hne)⟩
        next => cases hgo
  · intro l s hI hret
    cases l with
    | entry => cases hret
    | loop =>
        simp only [gotoBlock] at hret
        split at hret
        next => cases hret
        next hzero => exact (Shifted.body hI).result (not_not.mp hzero)

/-- The assertions of `pcount_goto_dw`. -/
def DwLabel.At (x : BitVec 64) : DwLabel → Shifting → Prop
  | .entry, s => s.x = x
  | .loop, s => Shifted x s
  | .done, s => s.result = BitVec.ofNat 64 (ones x)

def DwLabel.left : DwLabel → Shifting → ℕ
  | .entry, s => s.x.toNat + 2
  | .loop, s => s.x.toNat + 1
  | .done, _ => 0

theorem pcountGotoDw_eq (x : BitVec 64) {fuel : ℕ} (hfuel : x.toNat + 2 < fuel) :
    pcountGotoDw fuel x = some (BitVec.ofNat 64 (ones x)) := by
  unfold pcountGotoDw
  refine Goto.run_value (I := DwLabel.At x) DwLabel.left ?_ ?_ (l := .entry) (s := ⟨0, x⟩) rfl
    hfuel
  · intro l s l' hI hgo
    cases l with
    | entry =>
        obtain rfl : s.x = x := hI
        simp only [gotoDwBlock] at hgo
        split at hgo
        next hzero =>
          cases hgo
          exact ⟨(Shifted.start s.x).result hzero, Nat.zero_lt_succ _⟩
        next =>
          cases hgo
          exact ⟨Shifted.start s.x, Nat.lt_succ_self _⟩
    | loop =>
        simp only [gotoDwBlock] at hgo
        split at hgo
        next hne =>
          cases hgo
          exact ⟨Shifted.body hI, Nat.succ_lt_succ (Shifting.body_lt hne)⟩
        next hzero =>
          cases hgo
          exact ⟨(Shifted.body hI).result (not_not.mp hzero), Nat.zero_lt_succ _⟩
    | done => cases hgo
  · intro l s hI hret
    cases l with
    | entry =>
        simp only [gotoDwBlock] at hret
        split at hret <;> cases hret
    | loop =>
        simp only [gotoDwBlock] at hret
        split at hret <;> cases hret
    | done => exact hI

/-- The assertions of `pcount_goto_jtm`. -/
def JtmLabel.At (x : BitVec 64) : JtmLabel → Shifting → Prop
  | .entry, s => s.x = x
  | .loop, s => Shifted x s ∧ s.x ≠ 0
  | .test, s => Shifted x s

def JtmLabel.left : JtmLabel → Shifting → ℕ
  | .entry, s => 2 * s.x.toNat + 2
  | .loop, s => 2 * s.x.toNat
  | .test, s => 2 * s.x.toNat + 1

theorem pcountGotoJtm_eq (x : BitVec 64) {fuel : ℕ} (hfuel : 2 * x.toNat + 2 < fuel) :
    pcountGotoJtm fuel x = some (BitVec.ofNat 64 (ones x)) := by
  unfold pcountGotoJtm
  refine Goto.run_value (I := JtmLabel.At x) JtmLabel.left ?_ ?_ (l := .entry) (s := ⟨0, x⟩) rfl
    hfuel
  · intro l s l' hI hgo
    cases l with
    | entry =>
        cases hgo
        obtain rfl : s.x = x := hI
        exact ⟨Shifted.start s.x, Nat.lt_succ_self _⟩
    | loop =>
        cases hgo
        refine ⟨Shifted.body hI.1, ?_⟩
        have hlt : s.body.x.toNat < s.x.toNat := shift_lt hI.2
        show 2 * s.body.x.toNat + 1 < 2 * s.x.toNat
        omega
    | test =>
        simp only [gotoJtmBlock] at hgo
        split at hgo
        next hne =>
          cases hgo
          exact ⟨⟨hI, hne⟩, Nat.lt_succ_self _⟩
        next => cases hgo
  · intro l s hI hret
    cases l with
    | entry => cases hret
    | loop => cases hret
    | test =>
        simp only [gotoJtmBlock] at hret
        split at hret
        next => cases hret
        next hzero => exact Shifted.result hI (not_not.mp hzero)

/-- What a goto form that counts has established before position `i`. -/
def Counted (x : BitVec 64) (s : Counting) : Prop :=
  s.result = BitVec.ofNat 64 (onesBelow x s.i)

theorem Counted.body {x : BitVec 64} {s : Counting} (h : Counted x s) : Counted x (s.body x) :=
  addBit_eq x h

/-- After the last position the result is complete. -/
theorem Counted.result {x : BitVec 64} {s : Counting} (h : Counted x s) (hi : s.i = wsize) :
    s.result = BitVec.ofNat 64 (ones x) := by
  unfold Counted at h
  rw [hi] at h
  exact h

/-- The assertions of `pcount_for_goto_dw`. -/
def DwLabel.ForAt (x : BitVec 64) : DwLabel → Counting → Prop
  | .entry, _ => True
  | .loop, s => Counted x s ∧ s.i < wsize
  | .done, s => s.result = BitVec.ofNat 64 (ones x)

def DwLabel.forLeft : DwLabel → Counting → ℕ
  | .entry, _ => wsize + 1
  | .loop, s => wsize - s.i
  | .done, _ => 0

theorem pcountForGotoDw_eq (x : BitVec 64) {fuel : ℕ} (hfuel : wsize + 1 < fuel) :
    pcountForGotoDw fuel x = some (BitVec.ofNat 64 (ones x)) := by
  unfold pcountForGotoDw
  refine Goto.run_value (I := DwLabel.ForAt x) DwLabel.forLeft ?_ ?_ (l := .entry) trivial hfuel
  · intro l s l' hI hgo
    cases l with
    | entry =>
        cases hgo
        exact ⟨⟨rfl, show 0 < wsize by decide⟩, show wsize - 0 < wsize + 1 by decide⟩
    | loop =>
        obtain ⟨hcount, hlt⟩ := hI
        simp only [forGotoDwBlock] at hgo
        split at hgo
        next hmore =>
          cases hgo
          refine ⟨⟨hcount.body, hmore⟩, ?_⟩
          show wsize - (s.i + 1) < wsize - s.i
          omega
        next hend =>
          cases hgo
          have hi : (s.body x).i = wsize := Nat.le_antisymm hlt (Nat.not_lt.mp hend)
          exact ⟨hcount.body.result hi, Nat.sub_pos_of_lt hlt⟩
    | done => cases hgo
  · intro l s hI hret
    cases l with
    | entry => cases hret
    | loop =>
        simp only [forGotoDwBlock] at hret
        split at hret <;> cases hret
    | done => exact hI

/-- The assertions of `pcount_for_goto_jtm`. -/
def JtmLabel.ForAt (x : BitVec 64) : JtmLabel → Counting → Prop
  | .entry, _ => True
  | .loop, s => Counted x s ∧ s.i < wsize
  | .test, s => Counted x s ∧ s.i ≤ wsize

def JtmLabel.forLeft : JtmLabel → Counting → ℕ
  | .entry, _ => 2 * wsize + 2
  | .loop, s => 2 * (wsize - s.i)
  | .test, s => 2 * (wsize - s.i) + 1

theorem pcountForGotoJtm_eq (x : BitVec 64) {fuel : ℕ} (hfuel : 2 * wsize + 2 < fuel) :
    pcountForGotoJtm fuel x = some (BitVec.ofNat 64 (ones x)) := by
  unfold pcountForGotoJtm
  refine Goto.run_value (I := JtmLabel.ForAt x) JtmLabel.forLeft ?_ ?_ (l := .entry) trivial hfuel
  · intro l s l' hI hgo
    cases l with
    | entry =>
        cases hgo
        exact ⟨⟨rfl, Nat.zero_le _⟩, show 2 * (wsize - 0) + 1 < 2 * wsize + 2 by decide⟩
    | loop =>
        cases hgo
        refine ⟨⟨Counted.body hI.1, hI.2⟩, ?_⟩
        have hlt := hI.2
        show 2 * (wsize - (s.i + 1)) + 1 < 2 * (wsize - s.i)
        omega
    | test =>
        simp only [forGotoJtmBlock] at hgo
        split at hgo
        next hlt =>
          cases hgo
          exact ⟨⟨hI.1, hlt⟩, Nat.lt_succ_self _⟩
        next => cases hgo
  · intro l s hI hret
    cases l with
    | entry => cases hret
    | loop => cases hret
    | test =>
        simp only [forGotoJtmBlock] at hret
        split at hret
        next => cases hret
        next hend =>
          exact Counted.result hI.1 (Nat.le_antisymm hI.2 (Nat.not_lt.mp hend))

/-! ## §6. All nine. -/

/-- A count of bits fits in a `long`. -/
theorem toInt_ones (x : BitVec 64) : (BitVec.ofNat 64 (ones x)).toInt = ones x := by
  have hle := onesBelow_le x 64
  have hnat : (BitVec.ofNat 64 (ones x)).toNat = ones x := by
    rw [BitVec.toNat_ofNat]
    unfold ones
    omega
  rw [BitVec.toInt_eq_toNat_of_lt, hnat]
  rw [hnat]
  unfold ones
  omega

/-- **All nine routines return the number of one bits**, for every `x`: the structured ones
are total, and the goto forms return after enough blocks. -/
theorem pcount_returns (x : BitVec 64) :
    (pcountDo x).toInt = ones x ∧ (pcountWhile x).toInt = ones x ∧ (pcountR x).toInt = ones x ∧
    (pcountFor x).map BitVec.toInt = some (ones x : ℤ) ∧
    ∃ enough, ∀ fuel ≥ enough,
      (pcountGoto fuel x).map BitVec.toInt = some (ones x : ℤ) ∧
      (pcountGotoDw fuel x).map BitVec.toInt = some (ones x : ℤ) ∧
      (pcountGotoJtm fuel x).map BitVec.toInt = some (ones x : ℤ) ∧
      (pcountForGotoDw fuel x).map BitVec.toInt = some (ones x : ℤ) ∧
      (pcountForGotoJtm fuel x).map BitVec.toInt = some (ones x : ℤ) := by
  have hdo : pcountDo x = BitVec.ofNat 64 (ones x) := by
    unfold pcountDo
    rw [doLoop_result]
    exact BitVec.zero_add _
  have hwhile : pcountWhile x = BitVec.ofNat 64 (ones x) := by
    unfold pcountWhile
    rw [whileLoop_result]
    exact BitVec.zero_add _
  have hint := toInt_ones x
  refine ⟨by rw [hdo, hint], by rw [hwhile, hint], by rw [pcountR_eq, hint],
    by rw [pcountFor_eq, Option.map_some, hint], 2 * x.toNat + 2 * wsize + 3, ?_⟩
  intro fuel hfuel
  rw [pcountGoto_eq x (by omega), pcountGotoDw_eq x (by omega), pcountGotoJtm_eq x (by omega),
    pcountForGotoDw_eq x (by omega), pcountForGotoJtm_eq x (by omega), Option.map_some, hint]
  exact ⟨rfl, rfl, rfl, rfl, rfl⟩

end ComputerScience.MachineControl
