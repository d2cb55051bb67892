/-
  ComputerScience.Lib.Linearizability
  ───────────────────────────────────
  **LOCALITY OF LINEARIZABILITY, for operations with call and return times.**

  A history is a list of completed operations.  It is linearizable when its
  operations can be put in one order that never contradicts real time (`a`
  precedes `b` when `a` returned before `b` was called) and that the sequential
  object accepts.

  A keyed object keeps one state per key and an operation acts on the state of its
  own key.  `linearizable_keyed_iff`: the whole history is linearizable iff the
  operations of each key are.  The merge of the per-key orders is built by taking,
  again and again, the head of the order that holds the operation which returns
  first among those left — no remaining operation precedes that head.
-/
import Mathlib.Data.Finset.Max
import Mathlib.Logic.Function.Basic
import Mathlib.Data.List.Perm.Basic

namespace ComputerScience.Lib

variable {Op S K T : Type*} [LinearOrder T]

/-! ## §1. Linearizable histories. -/

/-- The order never puts `a` before `b` when `b` returned before `a` was called. -/
def Respects (call ret : Op → T) (l : List Op) : Prop :=
  l.Pairwise (fun a b => ¬ ret b < call a)

/-- The sequential object accepts the operations in this order. -/
def Legal (step : S → Op → Option S) : S → List Op → Prop
  | _, [] => True
  | s, op :: l => ∃ s', step s op = some s' ∧ Legal step s' l

/-- Some order of the operations respects real time and is legal from `init`. -/
def Linearizable (call ret : Op → T) (step : S → Op → Option S) (init : S)
    (h : List Op) : Prop :=
  ∃ l, l.Perm h ∧ Respects call ret l ∧ Legal step init l

/-! ## §2. The keyed object. -/

section Keyed

variable [DecidableEq K] (key : Op → K)

/-- The operation acts on the state of its own key and leaves the others. -/
def keyStep (step : S → Op → Option S) (m : K → S) (op : Op) : Option (K → S) :=
  (step (m (key op)) op).map (Function.update m (key op))

/-- The operations of one key, in the order of the history. -/
def ofKey (k : K) (l : List Op) : List Op := l.filter (fun op => key op = k)

theorem ofKey_cons_self (op : Op) (l : List Op) :
    ofKey key (key op) (op :: l) = op :: ofKey key (key op) l := by
  simp [ofKey]

theorem ofKey_cons_ne {k : K} {op : Op} (h : key op ≠ k) (l : List Op) :
    ofKey key k (op :: l) = ofKey key k l := by
  simp [ofKey, h]

theorem ofKey_perm {l l' : List Op} (h : l.Perm l') (k : K) :
    (ofKey key k l).Perm (ofKey key k l') :=
  h.filter _

/-- **A keyed run is legal iff each key's run is.** -/
theorem legal_keyStep_iff (step : S → Op → Option S) (l : List Op) :
    ∀ m : K → S, Legal (keyStep key step) m l ↔
      ∀ k, Legal step (m k) (ofKey key k l) := by
  induction l with
  | nil => intro m; simp [Legal, ofKey]
  | cons op l ih =>
      intro m
      constructor
      · rintro ⟨m', hm', hl⟩ k
        simp only [keyStep, Option.map_eq_some_iff] at hm'
        obtain ⟨s', hs', rfl⟩ := hm'
        have hk := (ih _).mp hl k
        by_cases h : key op = k
        · subst h
          rw [ofKey_cons_self]
          exact ⟨s', hs', by simpa using hk⟩
        · rw [ofKey_cons_ne key h]
          simpa [Function.update_of_ne (Ne.symm h)] using hk
      · intro hall
        have hop := hall (key op)
        rw [ofKey_cons_self] at hop
        obtain ⟨s', hs', hrest⟩ := hop
        refine ⟨Function.update m (key op) s', by simp [keyStep, hs'], ?_⟩
        rw [ih]
        intro k
        by_cases h : key op = k
        · subst h
          simpa using hrest
        · have hk := hall k
          rw [ofKey_cons_ne key h] at hk
          simpa [Function.update_of_ne (Ne.symm h)] using hk

/-! ## §3. Merging per-key orders. -/

variable (call ret : Op → T)

/-- Among finitely many operations one returns first. -/
theorem exists_first_return {h : List Op} (hne : h ≠ []) :
    ∃ m ∈ h, ∀ b ∈ h, ret m ≤ ret b := by
  classical
  obtain ⟨m, hm, hmin⟩ := h.toFinset.exists_min_image ret
    (by simpa [Finset.nonempty_iff_ne_empty] using hne)
  exact ⟨m, by simpa using hm, fun b hb => hmin b (by simpa using hb)⟩

/-- The head of the order that holds the first operation to return is called no
later than any operation returns. -/
theorem head_call_le {h L : List Op} {x m : Op}
    (hcr : call x ≤ ret x) (hL : Respects call ret (x :: L)) (hm : m ∈ x :: L)
    (hmin : ∀ b ∈ h, ret m ≤ ret b) : ∀ b ∈ h, ¬ ret b < call x := by
  intro b hb
  have hxm : call x ≤ ret m := by
    rcases List.mem_cons.mp hm with rfl | hmL
    · exact hcr
    · exact not_lt.mp ((List.pairwise_cons.mp hL).1 m hmL)
  exact not_lt.mpr (hxm.trans (hmin b hb))

/-- **The merge**: orders of the single keys that respect real time are the
restrictions of one order that respects real time. -/
theorem exists_merge : ∀ (n : ℕ) (h : List Op) (L : K → List Op),
    h.length = n → (∀ op ∈ h, call op ≤ ret op) →
    (∀ k, (L k).Perm (ofKey key k h)) → (∀ k, Respects call ret (L k)) →
    ∃ l, l.Perm h ∧ Respects call ret l ∧ ∀ k, ofKey key k l = L k := by
  intro n
  induction n with
  | zero =>
      intro h L hlen _ hperm _
      obtain rfl := List.length_eq_zero_iff.mp hlen
      refine ⟨[], List.Perm.refl _, List.Pairwise.nil, fun k => ?_⟩
      have := hperm k
      simp only [ofKey, List.filter_nil, List.perm_nil] at this ⊢
      exact this.symm
  | succ n ih =>
      intro h L hlen hcr hperm hresp
      have hne : h ≠ [] := by
        rintro rfl
        simp at hlen
      obtain ⟨m, hm, hmin⟩ := exists_first_return ret hne
      have hmL : m ∈ L (key m) := by
        rw [(hperm (key m)).mem_iff]
        simp [ofKey, hm]
      -- `x` heads the order of `m`'s key; it can go first in the merged order.
      obtain ⟨x, L', hxL⟩ := List.exists_cons_of_ne_nil (List.ne_nil_of_mem hmL)
      have hxh : x ∈ ofKey key (key m) h := by
        rw [← (hperm (key m)).mem_iff, hxL]
        exact List.mem_cons_self
      obtain ⟨hxmem, hxkey⟩ : x ∈ h ∧ key x = key m := by simpa [ofKey] using hxh
      obtain ⟨h₁, h₂, rfl⟩ := List.append_of_mem hxmem
      have hmid : (x :: (h₁ ++ h₂)).Perm (h₁ ++ x :: h₂) := List.perm_middle.symm
      have hfirst : ∀ b ∈ h₁ ++ x :: h₂, ¬ ret b < call x :=
        head_call_le call ret (hcr x hxmem) (hxL ▸ hresp (key m)) (hxL ▸ hmL) hmin
      have hperm' : ∀ k, (Function.update L (key m) L' k).Perm (ofKey key k (h₁ ++ h₂)) := by
        intro k
        have hk := (hperm k).trans (ofKey_perm key hmid k).symm
        by_cases hkm : k = key m
        · subst hkm
          rw [← hxkey, ofKey_cons_self, hxkey, hxL] at hk
          simpa using hk.cons_inv
        · rw [ofKey_cons_ne key (by rw [hxkey]; exact Ne.symm hkm)] at hk
          simpa [Function.update_of_ne hkm] using hk
      have hresp' : ∀ k, Respects call ret (Function.update L (key m) L' k) := by
        intro k
        by_cases hkm : k = key m
        · subst hkm
          have := hresp (key m)
          rw [hxL] at this
          rw [Function.update_self]
          exact (List.pairwise_cons.mp this).2
        · simpa [Function.update_of_ne hkm] using hresp k
      obtain ⟨l, hl, hlr, hlk⟩ := ih (h₁ ++ h₂) (Function.update L (key m) L')
        (by simp at hlen ⊢; omega)
        (fun op hop => hcr op (by simp at hop ⊢; tauto)) hperm' hresp'
      refine ⟨x :: l, (hl.cons x).trans hmid, ?_, ?_⟩
      · refine List.pairwise_cons.mpr ⟨fun b hb => hfirst b ?_, hlr⟩
        have := hl.mem_iff.mp hb
        simp at this ⊢
        tauto
      · intro k
        by_cases hkm : k = key m
        · subst hkm
          rw [← hxkey, ofKey_cons_self, hxkey, hlk, hxL]
          simp
        · rw [ofKey_cons_ne key (by rw [hxkey]; exact Ne.symm hkm), hlk,
            Function.update_of_ne hkm]

/-- **LOCALITY**: a history of a keyed object is linearizable iff the operations
of every key are. -/
theorem linearizable_keyed_iff (step : S → Op → Option S) (init : K → S)
    (h : List Op) (hcr : ∀ op ∈ h, call op ≤ ret op) :
    Linearizable call ret (keyStep key step) init h ↔
      ∀ k, Linearizable call ret step (init k) (ofKey key k h) := by
  constructor
  · rintro ⟨l, hperm, hresp, hlegal⟩ k
    exact ⟨ofKey key k l, ofKey_perm key hperm k, hresp.filter _,
      (legal_keyStep_iff key step l init).mp hlegal k⟩
  · intro hall
    choose L hperm hresp hlegal using hall
    obtain ⟨l, hl, hlr, hlk⟩ :=
      exists_merge key call ret h.length h L rfl hcr hperm hresp
    refine ⟨l, hl, hlr, (legal_keyStep_iff key step l init).mpr fun k => ?_⟩
    rw [hlk]
    exact hlegal k

end Keyed

end ComputerScience.Lib
