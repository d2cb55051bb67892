/-
  ComputerScience.Sync.SbufWrap
  ─────────────────────────────
  **THE BOUNDED BUFFER OVER LONG RUNS** (`25-sync-advanced/sbuf.c`): what the cells are
  when `front` and `rear` wrap.

  The counters are never reduced modulo `n`.  After `2^31 - 1` increments `++rear` gives
  `-2^31`, and C's `%` takes the sign of its left operand: unless `n` is `1` an index
  becomes negative.  If `n` divides `2^31`, as the `16` of `echoservert_pre.c` does, the
  index of the first negative counter still is `0` and the second one leaves the array.

  Main results:
    • `Wrapped.step` — the tokens and the wrapped counters over every step,
    • `indicesOk_of_few` — every access and every pair of items is right up to
      `safeInserts n` insertions,
    • `sbuf_wrap` — the exact condition, over runs of any length.
-/
import ComputerScience.Sync.Sbuf
import Mathlib.Tactic.Ring

namespace ComputerScience.Sync

open ComputerScience.Lib

/-! ## §1. Counters that wrap. -/

/-- The wrapped counter after one more increment. -/
theorem incr_int32 (k : ℕ) : incr (int32 k) = int32 ((k + 1 : ℕ) : ℤ) := by
  unfold incr int32
  rw [Int.bmod_add_bmod]
  norm_cast

/-- The tokens after `f` loads and `r` stores, with counters that wrap. -/
structure Wrapped (s : Sbuf) (f r : ℕ) : Prop where
  tokens : Tokens s f r
  front_eq : s.sp.front = int32 f
  rear_eq : s.sp.rear = int32 r

/-- **One step**: a store counts at the rear, a load at the front. -/
theorem Wrapped.step {s s' : Sbuf} {f r : ℕ} (hw : Wrapped s f r) (hstep : SbufStep s s') :
    ∃ f' r', Wrapped s' f' r' := by
  obtain ⟨ht, hfront, hrear⟩ := hw
  cases hstep with
  | callInsert i item h =>
      exact ⟨f, r, ht.semStep (.insSlots item) h _ _ _ _ rfl rfl rfl ⟨rfl, rfl⟩ ⟨rfl, rfl⟩,
        hfront, hrear⟩
  | pSlots i item h hp =>
      refine ⟨f, r, ht.semStep (.insMutex item) h _ (s.sp.slots - 1) _ _ rfl ?_ rfl
        ⟨rfl, rfl⟩ ⟨rfl, rfl⟩, hfront, hrear⟩
      show s.sp.slots - 1 + 1 = s.sp.slots + 0
      omega
  | insLock i item h hp => exact ⟨f, r, ht.insLock h hp, hfront, hrear⟩
  | store i item h =>
      refine ⟨f, r + 1, ht.store h _ _, hfront, ?_⟩
      show incr s.sp.rear = _
      rw [hrear, incr_int32]
  | insUnlock i h =>
      exact ⟨f, r, ht.semStep .insItems h (s.sp.mutex + 1) _ _ _ rfl rfl rfl ⟨rfl, rfl⟩
        ⟨rfl, rfl⟩, hfront, hrear⟩
  | vItems i h =>
      exact ⟨f, r, ht.semStep .idle h _ _ (s.sp.items + 1) _ rfl rfl rfl ⟨rfl, rfl⟩
        ⟨rfl, rfl⟩, hfront, hrear⟩
  | callRemove i h =>
      exact ⟨f, r, ht.semStep .remItems h _ _ _ _ rfl rfl rfl ⟨rfl, rfl⟩ ⟨rfl, rfl⟩,
        hfront, hrear⟩
  | pItems i h hp =>
      refine ⟨f, r, ht.semStep .remMutex h _ _ (s.sp.items - 1) _ ?_ rfl rfl ⟨rfl, rfl⟩
        ⟨rfl, rfl⟩, hfront, hrear⟩
      show s.sp.items - 1 + 1 = s.sp.items + 0
      omega
  | remLock i h hp => exact ⟨f, r, ht.remLock h hp, hfront, hrear⟩
  | load i k h =>
      refine ⟨f + 1, r, ht.load h _ _, ?_, hrear⟩
      show incr s.sp.front = _
      rw [hfront, incr_int32]
  | remUnlock i k item h =>
      exact ⟨f, r, ht.semStep (.remSlots k item) h (s.sp.mutex + 1) _ _ _ rfl rfl rfl
        ⟨rfl, rfl⟩ ⟨rfl, rfl⟩, hfront, hrear⟩
  | vSlots i k item h =>
      exact ⟨f, r, ht.semStep .idle h _ (s.sp.slots + 1) _ _ rfl rfl rfl ⟨rfl, rfl⟩
        ⟨rfl, rfl⟩, hfront, hrear⟩

/-- **Whole runs**, of any length. -/
theorem wrapped_reachable {n : ℤ} (hn : 1 ≤ n) {s : Sbuf} (h : (sbufSystem n).Reachable s) :
    s.sp.n = n ∧ ∃ f r, Wrapped s f r := by
  refine ⟨(sbuf_invariant hn h).1, ?_⟩
  refine h.invariant (I := fun s => ∃ f r, Wrapped s f r) ?_ ?_
  · intro s h0
    -- `sbuf_init`: nothing inserted, so the account is the one of the FIFO invariant
    obtain ⟨f, r, hacc, -⟩ := (SbufInv.init hn h0).2 (by
      obtain ⟨threads, _, rfl⟩ := h0
      show 0 < 2 ^ 31 - 1
      decide)
    obtain ⟨threads, _, rfl⟩ := h0
    have hf : (0 : ℤ) = f := hacc.front_eq
    have hr : (0 : ℤ) = r := hacc.rear_eq
    exact ⟨f, r, hacc.tokens, by rw [← hf]; rfl, by rw [← hr]; rfl⟩
  · rintro s s' _ ⟨f, r, hw⟩ hstep
    exact hw.step hstep

/-! ## §2. The property. -/

/-- The cell of the store number `j`: `rear` has been incremented `j` times before. -/
def itemSlot (n : ℤ) (j : ℕ) : ℤ := (incr (incr^[j] 0)).tmod n

/-- The loads and the stores that have been made: an operation that is still about to
access the buffer has not made its own. -/
def Sbuf.loads (s : Sbuf) : ℕ := s.removals.length - weight Pc.loading s.threads

def Sbuf.stores (s : Sbuf) : ℕ := s.inserted.length - weight Pc.storing s.threads

/-- **What the indices should be**: the access that a thread is about to make is inside
the array, and two items in the buffer are in different cells. -/
structure IndicesOk (n : ℤ) (s : Sbuf) : Prop where
  store : ∀ (i : ℕ) (item : ℤ), s.threads[i]? = some (.insStore item) →
    0 ≤ s.sp.slot s.sp.rear ∧ s.sp.slot s.sp.rear < n
  load : ∀ i k : ℕ, s.threads[i]? = some (.remLoad k) →
    0 ≤ s.sp.slot s.sp.front ∧ s.sp.slot s.sp.front < n
  apart : ∀ j k, s.loads ≤ j → j < s.stores → s.loads ≤ k → k < s.stores → j ≠ k →
    itemSlot n j ≠ itemSlot n k

/-- How many insertions are safe. -/
def safeInserts (n : ℤ) : ℕ := if n ∣ 2 ^ 31 then 2 ^ 31 else 2 ^ 31 - 1

theorem iterate_incr (j : ℕ) : incr^[j] 0 = int32 j := by
  induction j with
  | zero => rfl
  | succ j ih => rw [Function.iterate_succ_apply', ih, incr_int32]

theorem itemSlot_eq (n : ℤ) (j : ℕ) : itemSlot n j = (int32 ((j + 1 : ℕ) : ℤ)).tmod n := by
  unfold itemSlot
  rw [iterate_incr, incr_int32]

theorem Wrapped.slot_rear {s : Sbuf} {f r : ℕ} (hw : Wrapped s f r) :
    s.sp.slot s.sp.rear = (int32 ((r + 1 : ℕ) : ℤ)).tmod s.sp.n := by
  unfold SbufT.slot
  rw [hw.rear_eq, incr_int32]

theorem Wrapped.slot_front {s : Sbuf} {f r : ℕ} (hw : Wrapped s f r) :
    s.sp.slot s.sp.front = (int32 ((f + 1 : ℕ) : ℤ)).tmod s.sp.n := by
  unfold SbufT.slot
  rw [hw.front_eq, incr_int32]

theorem Wrapped.loads_eq {s : Sbuf} {f r : ℕ} (hw : Wrapped s f r) : s.loads = f := by
  have := hw.tokens.removals_eq
  unfold Sbuf.loads
  omega

theorem Wrapped.stores_eq {s : Sbuf} {f r : ℕ} (hw : Wrapped s f r) : s.stores = r := by
  have := hw.tokens.inserted_eq
  unfold Sbuf.stores
  omega

/-- There are never more than `n` items in the buffer. -/
theorem Wrapped.distance {s : Sbuf} {f r : ℕ} (hw : Wrapped s f r) : (r : ℤ) ≤ f + s.sp.n := by
  have := hw.tokens.slots_eq
  omega

/-- The insertion at the store is the last one: it holds the mutex. -/
theorem Wrapped.inserted_of_storing {s : Sbuf} {f r i : ℕ} {item : ℤ} (hw : Wrapped s f r)
    (hi : s.threads[i]? = some (.insStore item)) : s.inserted.length = r + 1 := by
  have h1 := le_weight Pc.storing hi
  have h2 : Pc.storing (.insStore item) = 1 := rfl
  have h3 := weight_mono storing_le_locked s.threads
  have h4 := hw.tokens.mutex_eq
  have h5 := hw.tokens.inserted_eq
  omega

/-! ## §3. Up to `safeInserts` insertions. -/

/-- The cell of a counter that is safe is the counter modulo `n`. -/
theorem tmod_of_safe {n : ℤ} {k : ℕ} (hk : k ≤ safeInserts n) :
    (int32 k).tmod n = (k : ℤ) % n := by
  unfold safeInserts at hk
  by_cases hlt : k < 2 ^ 31
  · rw [int32_natCast hlt, Int.tmod_eq_emod_of_nonneg (by omega)]
  · -- only `2^31` itself is left, and then `n` divides it
    split at hk
    next hdvd =>
      obtain rfl : k = 2 ^ 31 := by omega
      have hwrap : int32 ((2 ^ 31 : ℕ) : ℤ) = -2 ^ 31 := by decide
      rw [hwrap, Int.tmod_eq_zero_of_dvd (Int.dvd_neg.mpr hdvd)]
      exact (Int.emod_eq_zero_of_dvd (by exact_mod_cast hdvd)).symm
    next => omega

theorem tmod_range_of_safe {n : ℤ} (hn : 1 ≤ n) {k : ℕ} (hk : k ≤ safeInserts n) :
    0 ≤ (int32 k).tmod n ∧ (int32 k).tmod n < n := by
  rw [tmod_of_safe hk]
  exact ⟨Int.emod_nonneg _ (by omega), Int.emod_lt_of_pos _ (by omega)⟩

/-- **Few insertions are safe.** -/
theorem indicesOk_of_few {n : ℤ} (hn : 1 ≤ n) {s : Sbuf} (h : (sbufSystem n).Reachable s)
    (hfew : s.inserted.length ≤ safeInserts n) : IndicesOk n s := by
  obtain ⟨hsize, f, r, hw⟩ := wrapped_reachable hn h
  have hins := hw.tokens.inserted_eq
  constructor
  · intro i item hi
    have := hw.inserted_of_storing hi
    rw [hw.slot_rear, hsize]
    exact tmod_range_of_safe hn (by omega)
  · intro i k hi
    have := hw.tokens.load_lt hi
    rw [hw.slot_front, hsize]
    exact tmod_range_of_safe hn (by omega)
  · rw [hw.loads_eq, hw.stores_eq]
    intro j k hj hj' hk hk' hne
    have hdist := hw.distance
    rw [itemSlot_eq, itemSlot_eq, tmod_of_safe (by omega), tmod_of_safe (by omega)]
    rcases Nat.lt_or_gt_of_ne hne with hlt | hlt
    · exact emod_ne (by omega) (by omega)
    · exact (emod_ne (by omega) (by omega)).symm

/-- One cell: every index is `0`, and there is at most one item. -/
theorem indicesOk_one {s : Sbuf} (h : (sbufSystem 1).Reachable s) : IndicesOk 1 s := by
  obtain ⟨hsize, f, r, hw⟩ := wrapped_reachable (Int.le_refl 1) h
  constructor
  · intro i item hi
    rw [hw.slot_rear, hsize, Int.tmod_one]
    decide
  · intro i k hi
    rw [hw.slot_front, hsize, Int.tmod_one]
    decide
  · have hdist := hw.distance
    rw [hw.loads_eq, hw.stores_eq]
    intro j k hj hj' hk hk' hne
    omega

/-! ## §4. The insertion after that. -/

/-- The index of the first counter that is not safe is negative. -/
theorem tmod_neg {n : ℤ} (hn : 2 ≤ n) : (int32 ((safeInserts n + 1 : ℕ) : ℤ)).tmod n < 0 := by
  unfold safeInserts
  split
  next hdvd =>
    have hwrap : int32 ((2 ^ 31 + 1 : ℕ) : ℤ) = -(2 ^ 31 - 1) := by decide
    rw [hwrap, Int.neg_tmod, Int.tmod_eq_emod_of_nonneg (by decide)]
    -- `n` divides `2^31`, so it does not divide the number before
    have hpos : 0 < (2 ^ 31 - 1 : ℤ) % n := by
      rcases Int.lt_or_eq_of_le (Int.emod_nonneg (2 ^ 31 - 1 : ℤ) (by omega : n ≠ 0)) with h | h
      · exact h
      · have hone : n ∣ 2 ^ 31 - (2 ^ 31 - 1) :=
          Int.dvd_sub hdvd (Int.dvd_of_emod_eq_zero h.symm)
        have := Int.le_of_dvd (by decide) hone
        omega
    omega
  next hndvd =>
    have hwrap : int32 ((2 ^ 31 - 1 + 1 : ℕ) : ℤ) = -2 ^ 31 := by decide
    rw [hwrap, Int.neg_tmod, Int.tmod_eq_emod_of_nonneg (by decide)]
    have hpos : 0 < (2 ^ 31 : ℤ) % n := by
      rcases Int.lt_or_eq_of_le (Int.emod_nonneg (2 ^ 31 : ℤ) (by omega : n ≠ 0)) with h | h
      · exact h
      · exact absurd (Int.dvd_of_emod_eq_zero h.symm) hndvd
    omega

/-- **The insertion number `safeInserts n + 1`** stores outside the array. -/
theorem store_outside {n : ℤ} (hn : 2 ≤ n) {s : Sbuf} (h : (sbufSystem n).Reachable s) {i : ℕ}
    {item : ℤ} (hi : s.threads[i]? = some (.insStore item))
    (hmany : s.inserted.length = safeInserts n + 1) : s.sp.slot s.sp.rear < 0 := by
  obtain ⟨hsize, f, r, hw⟩ := wrapped_reachable (by omega) h
  have hlast := hw.inserted_of_storing hi
  obtain rfl : r = safeInserts n := by omega
  rw [hw.slot_rear, hsize]
  exact tmod_neg hn

/-- One thread alone, outside of both routines, with an empty buffer. -/
structure Alone (n : ℤ) (s : Sbuf) : Prop where
  threads : s.threads = [.idle]
  slots : s.sp.slots = n.toNat
  mutex : s.sp.mutex = 1
  items : s.sp.items = 0

/-- It inserts an item, up to the store. -/
theorem Alone.insert {n : ℤ} (hn : 1 ≤ n) {s : Sbuf} (ha : Alone n s)
    (hs : (sbufSystem n).Reachable s) :
    ∃ t, (sbufSystem n).Reachable t ∧ t.threads = [.insStore 0] ∧ t.sp.slots + 1 = n.toNat ∧
      t.sp.mutex = 0 ∧ t.sp.items = 0 ∧ t.inserted = s.inserted ++ [0] := by
  obtain ⟨⟨buf, size, front, rear, mutex, slots, items⟩, threads, inserted, removals, returned⟩ := s
  obtain ⟨rfl, rfl, rfl, rfl⟩ := ha
  have h1 := hs.tail (SbufStep.callInsert 0 0 rfl)
  have h2 := h1.tail (SbufStep.pSlots 0 0 rfl (by show 0 < n.toNat; omega))
  have h3 := h2.tail (SbufStep.insLock 0 0 rfl Nat.one_pos)
  refine ⟨_, h3, rfl, ?_, rfl, rfl, rfl⟩
  show n.toNat - 1 + 1 = n.toNat
  omega

/-- It completes the insertion and removes the item again. -/
theorem reachable_round {n : ℤ} {t : Sbuf} (ht : (sbufSystem n).Reachable t)
    (hthreads : t.threads = [.insStore 0]) (hslots : t.sp.slots + 1 = n.toNat)
    (hmutex : t.sp.mutex = 0) (hitems : t.sp.items = 0) :
    ∃ s, (sbufSystem n).Reachable s ∧ Alone n s ∧ s.inserted = t.inserted := by
  obtain ⟨⟨buf, size, front, rear, mutex, slots, items⟩, threads, inserted, removals, returned⟩ := t
  dsimp only at hthreads hslots hmutex hitems
  subst hthreads hmutex hitems
  have h1 := ht.tail (SbufStep.store 0 0 rfl)
  have h2 := h1.tail (SbufStep.insUnlock 0 rfl)
  have h3 := h2.tail (SbufStep.vItems 0 rfl)
  have h4 := h3.tail (SbufStep.callRemove 0 rfl)
  have h5 := h4.tail (SbufStep.pItems 0 rfl Nat.one_pos)
  have h6 := h5.tail (SbufStep.remLock 0 rfl Nat.one_pos)
  have h7 := h6.tail (SbufStep.load 0 _ rfl)
  have h8 := h7.tail (SbufStep.remUnlock 0 _ _ rfl)
  have h9 := h8.tail (SbufStep.vSlots 0 _ _ rfl)
  exact ⟨_, h9, ⟨rfl, hslots, rfl, rfl⟩, rfl⟩

/-- `k` insertions and removals, one after the other. -/
theorem reachable_rounds {n : ℤ} (hn : 1 ≤ n) (k : ℕ) :
    ∃ s, (sbufSystem n).Reachable s ∧ Alone n s ∧ s.inserted.length = k := by
  induction k with
  | zero =>
      exact ⟨sbufInit n [.idle], System.Reachable.of_init ⟨_, by simp, rfl⟩,
        ⟨rfl, rfl, rfl, rfl⟩, rfl⟩
  | succ k ih =>
      obtain ⟨s, hs, ha, hlen⟩ := ih
      obtain ⟨t, ht, hthreads, hslots, hmutex, hitems, hins⟩ := ha.insert hn hs
      obtain ⟨s', hs', ha', hins'⟩ := reachable_round ht hthreads hslots hmutex hitems
      refine ⟨s', hs', ha', ?_⟩
      rw [hins', hins, List.length_append, hlen, List.length_singleton]

/-- A run in which insertion number `k + 1` is about to store. -/
theorem reachable_storing {n : ℤ} (hn : 1 ≤ n) (k : ℕ) :
    ∃ s, (sbufSystem n).Reachable s ∧ s.threads[0]? = some (.insStore 0) ∧
      s.inserted.length = k + 1 := by
  obtain ⟨s, hs, ha, hlen⟩ := reachable_rounds hn k
  obtain ⟨t, ht, hthreads, -, -, -, hins⟩ := ha.insert hn hs
  refine ⟨t, ht, by rw [hthreads]; rfl, ?_⟩
  rw [hins, List.length_append, hlen, List.length_singleton]

/-! ## §5. The exact condition. -/

/-- **When the indices are right**, for runs of any length:

  • they are right in all runs of a buffer exactly if it has one slot,
  • with more slots they are right as long as at most `safeInserts n` insertions have
    taken the mutex,
  • and the insertion after those stores outside the array, whatever the run. -/
theorem sbuf_wrap (n : ℤ) (hn : 1 ≤ n) :
    ((∀ s, (sbufSystem n).Reachable s → IndicesOk n s) ↔ n = 1) ∧
    (∀ s, (sbufSystem n).Reachable s → s.inserted.length ≤ safeInserts n → IndicesOk n s) ∧
    (2 ≤ n → ∀ s, (sbufSystem n).Reachable s → ∀ (i : ℕ) (item : ℤ),
      s.threads[i]? = some (.insStore item) → s.inserted.length = safeInserts n + 1 →
      ¬ IndicesOk n s) := by
  refine ⟨⟨?_, ?_⟩, fun s hs hfew => indicesOk_of_few hn hs hfew, ?_⟩
  · intro hall
    by_contra hne
    obtain ⟨s, hs, hi, hlen⟩ := reachable_storing hn (safeInserts n)
    have hneg := store_outside (by omega) hs hi hlen
    have hok := ((hall s hs).store 0 0 hi).1
    omega
  · rintro rfl s hs
    exact indicesOk_one hs
  · intro hn2 s hs i item hi hmany hok
    have hneg := store_outside hn2 hs hi hmany
    have hpos := (hok.store i item hi).1
    omega

/-- The `16` slots of `echoservert_pre.c`: after `2^31` insertions and removals the next
insertion is about to store at the index `-15`. -/
theorem sbuf_wrap_sixteen : ∃ s, (sbufSystem 16).Reachable s ∧
    s.threads[0]? = some (.insStore 0) ∧ s.inserted.length = 2 ^ 31 + 1 ∧
      s.sp.slot s.sp.rear = -15 ∧ ¬ IndicesOk 16 s := by
  obtain ⟨s, hs, hi, hlen⟩ := reachable_storing (n := 16) (by decide) (2 ^ 31)
  obtain ⟨hsize, f, r, hw⟩ := wrapped_reachable (by decide) hs
  have hlast := hw.inserted_of_storing hi
  obtain rfl : r = 2 ^ 31 := by omega
  have hslot : s.sp.slot s.sp.rear = -15 := by
    rw [hw.slot_rear, hsize]
    decide
  refine ⟨s, hs, hi, hlen, hslot, fun hok => ?_⟩
  have := (hok.store 0 0 hi).1
  omega

theorem sbuf_wrap_one : (1 : ℤ) ≤ 1 ∧ ∀ s, (sbufSystem 1).Reachable s → IndicesOk 1 s :=
  ⟨by decide, (sbuf_wrap 1 (by decide)).1.mpr rfl⟩

end ComputerScience.Sync
