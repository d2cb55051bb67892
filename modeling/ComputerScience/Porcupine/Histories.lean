/-
  ComputerScience.Porcupine.Histories
  ───────────────────────────────────
  **HISTORIES OF OPERATIONS AND THE VERDICT OF `checkSingle`** (`makeEntries` in
  `porcupine/checker.go`).

  `makeEntries` numbers the operations and sorts their calls and returns by time, the calls
  first where the times agree.  So the return of one operation comes before the call of
  another one exactly if it is earlier, and the answer of `checkSingle` is about the history
  itself.

  Main results:
    • `makeEntries_wf`, `precedes_iff` — the entries of a history,
    • `entryPrefix_iff`, `solvable_makeEntries` — its linearizable prefixes and linearizations,
    • `checkSingle_iff_linearizable` — the answer is `true` if and only if the history is
      linearizable.
-/
import Mathlib.Data.List.Perm.Basic
import ComputerScience.Porcupine.Prefixes

namespace ComputerScience.Porcupine

open ComputerScience.Lib

variable {I O S : Type}

/-! ## §1. The entries of a history. -/

/-- The entries of operation `id`. -/
def entryOf (op : Operation I O) (id : ℕ) : EntryKind → Entry I O
  | .callEntry => ⟨.callEntry, .input op.input, id, op.call, op.clientId⟩
  | .returnEntry => ⟨.returnEntry, .output op.output, id, op.ret, op.clientId⟩

theorem entryOf_kind (op : Operation I O) (id : ℕ) (k : EntryKind) : (entryOf op id k).kind = k := by
  cases k <;> rfl

theorem entryOf_id (op : Operation I O) (id : ℕ) (k : EntryKind) : (entryOf op id k).id = id := by
  cases k <;> rfl

theorem Entry.less_of_lt {a b : Entry I O} (h : a.time < b.time) : a.less b = true := by
  unfold Entry.less
  rw [if_pos (ne_of_lt h), decide_eq_true h]

/-- A return entry may stand before a call entry only if it is earlier. -/
theorem time_lt_of_not_less {r c : Entry I O} (hr : r.kind = .returnEntry)
    (hc : c.kind = .callEntry) (h : c.less r = false) : r.time < c.time := by
  unfold Entry.less at h
  split at h
  · have := of_decide_eq_false h
    omega
  · rw [hr, hc] at h
    simp at h

theorem mem_appendEntries {history : List (Operation I O)} {id : ℕ} {e : Entry I O} :
    e ∈ appendEntries id history ↔
      ∃ i op k, history[i]? = some op ∧ e = entryOf op (id + i) k := by
  induction history generalizing id with
  | nil => simp [appendEntries]
  | cons op history ih =>
      rw [appendEntries, List.mem_cons, List.mem_cons, ih]
      constructor
      · rintro (rfl | rfl | ⟨i, op', k, hi, rfl⟩)
        · exact ⟨0, op, .callEntry, rfl, rfl⟩
        · exact ⟨0, op, .returnEntry, rfl, rfl⟩
        · exact ⟨i + 1, op', k, hi, by rw [Nat.add_right_comm, Nat.add_assoc]⟩
      · rintro ⟨i, op', k, hi, rfl⟩
        cases i with
        | zero =>
            obtain rfl : op = op' := Option.some.inj hi
            cases k with
            | callEntry => exact Or.inl rfl
            | returnEntry => exact Or.inr (Or.inl rfl)
        | succ i =>
            exact Or.inr (Or.inr ⟨i, op', k, hi, by rw [Nat.add_right_comm, Nat.add_assoc]⟩)

theorem appendEntries_map (history : List (Operation I O)) (id : ℕ) :
    ((appendEntries id history).map fun e => (e.kind, e.id)) =
      (List.range' id history.length).flatMap fun i => [(.callEntry, i), (.returnEntry, i)] := by
  induction history generalizing id with
  | nil => rfl
  | cons op history ih =>
      rw [appendEntries, List.map_cons, List.map_cons, ih, List.length_cons, List.range'_succ,
        List.flatMap_cons]
      rfl

section Made

variable (srt : EntrySort I O) {history : List (Operation I O)}

theorem mem_makeEntries {e : Entry I O} : e ∈ makeEntries srt history ↔
    ∃ i op k, history[i]? = some op ∧ e = entryOf op i k := by
  rw [makeEntries, (srt.perm _).mem_iff, mem_appendEntries]
  simp only [Nat.zero_add]

/-- The entry of operation `i` with kind `k`. -/
theorem entry_of_makeEntries {e : Entry I O} (he : e ∈ makeEntries srt history)
    {op : Operation I O} (hop : history[e.id]? = some op) : e = entryOf op e.id e.kind := by
  obtain ⟨i, op', k, hi, rfl⟩ := (mem_makeEntries srt).mp he
  rw [entryOf_id] at hop
  obtain rfl : op' = op := Option.some.inj (hi.symm.trans hop)
  rw [entryOf_id, entryOf_kind]

/-- **The entries are those of a complete history**, if every operation returns after its
call. -/
theorem makeEntries_wf (hcall : ∀ op ∈ history, op.call ≤ op.ret) :
    WfEntries (makeEntries srt history) history.length := by
  have hvalue : ∀ e ∈ makeEntries srt history, ∃ op k, e = entryOf op e.id k := by
    intro e he
    obtain ⟨i, op, k, -, rfl⟩ := (mem_makeEntries srt).mp he
    exact ⟨op, k, by rw [entryOf_id]⟩
  constructor
  · rw [List.range_eq_range', ← appendEntries_map]
    exact (srt.perm _).map _
  · refine (srt.sorted (appendEntries 0 history)).imp_of_mem ?_
    rintro a b ha hb hsorted ⟨hret, hcallb, hid⟩
    obtain ⟨i, op, ka, hi, rfl⟩ := (mem_makeEntries srt).mp ha
    rw [entryOf_id] at hid
    have hop : history[b.id]? = some op := by rw [← hid, hi]
    have hb' := entry_of_makeEntries srt hb hop
    rw [hcallb] at hb'
    have hlt := time_lt_of_not_less hret hcallb hsorted
    rw [entryOf_kind] at hret
    rw [hb', hret] at hlt
    exact absurd (hcall op (List.mem_of_getElem? hi)) (not_le.mpr hlt)
  · intro e he hk
    obtain ⟨op, k, heq⟩ := hvalue e he
    rw [heq, entryOf_kind] at hk
    exact ⟨op.input, by rw [heq, hk]; rfl⟩
  · intro e he hk
    obtain ⟨op, k, heq⟩ := hvalue e he
    rw [heq, entryOf_kind] at hk
    exact ⟨op.output, by rw [heq, hk]; rfl⟩

/-- Operation `j` of the history returned before operation `i` was called. -/
def PrecedesAt (history : List (Operation I O)) (j i : ℕ) : Prop :=
  ∃ b a, history[j]? = some b ∧ history[i]? = some a ∧ b.ret < a.call

/-- **The order of the entries is the order of the times.** -/
theorem precedes_iff {j i : ℕ} :
    Precedes (makeEntries srt history) j i ↔ PrecedesAt history j i := by
  have hsorted : ∀ {a b : Entry I O}, [a, b].Sublist (makeEntries srt history) →
      b.less a = false :=
    fun hsub => List.pairwise_iff_forall_sublist.mp (srt.sorted (appendEntries 0 history)) hsub
  constructor
  · rintro ⟨r, c, hsub, hret, rfl, hcall, rfl⟩
    have hless := hsorted hsub
    obtain ⟨j, b, k, hj, rfl⟩ := (mem_makeEntries srt).mp (hsub.subset List.mem_cons_self)
    obtain ⟨i, a, k', hi, rfl⟩ := (mem_makeEntries srt).mp
      (hsub.subset (List.mem_cons_of_mem _ List.mem_cons_self))
    rw [entryOf_kind] at hret hcall
    subst hret hcall
    refine ⟨b, a, by rw [entryOf_id, hj], by rw [entryOf_id, hi], ?_⟩
    exact time_lt_of_not_less rfl rfl hless
  · rintro ⟨b, a, hj, hi, hlt⟩
    have hr : entryOf b j .returnEntry ∈ makeEntries srt history :=
      (mem_makeEntries srt).mpr ⟨j, b, _, hj, rfl⟩
    have hc : entryOf a i .callEntry ∈ makeEntries srt history :=
      (mem_makeEntries srt).mpr ⟨i, a, _, hi, rfl⟩
    refine ⟨entryOf b j .returnEntry, entryOf a i .callEntry, ?_, rfl, rfl, rfl, rfl⟩
    obtain ⟨p, s, heq⟩ := List.append_of_mem hc
    rw [heq] at hr
    rcases List.mem_append.mp hr with hp | hs
    · rw [heq]
      exact List.Sublist.append (List.singleton_sublist.mpr hp)
        (List.singleton_sublist.mpr List.mem_cons_self)
    · rcases List.mem_cons.mp hs with he | hs
      · cases he
      · -- the other order would not be sorted
        have hless := hsorted (a := entryOf a i .callEntry) (b := entryOf b j .returnEntry) (by
          rw [heq]
          exact (List.Sublist.cons_cons _ (List.singleton_sublist.mpr hs)).trans
            (List.sublist_append_right p _))
        rw [Entry.less_of_lt hlt] at hless
        cases hless

/-- The model on the operation at an index. -/
def acceptAt (M : Model I O S) (history : List (Operation I O)) (s : S) (i : ℕ) : Option S :=
  history[i]?.bind (M.accept s)

theorem acceptId_makeEntries (M : Model I O S) (hcall : ∀ op ∈ history, op.call ≤ op.ret) :
    acceptId M (makeEntries srt history) = acceptAt M history := by
  have hwf := makeEntries_wf srt hcall
  funext s i
  unfold acceptAt
  cases hop : history[i]? with
  | some op =>
      have hc := hwf.find_eq (k := .callEntry) (e := entryOf op i .callEntry)
        ((mem_makeEntries srt).mpr ⟨i, op, _, hop, rfl⟩) rfl
      have hr := hwf.find_eq (k := .returnEntry) (e := entryOf op i .returnEntry)
        ((mem_makeEntries srt).mpr ⟨i, op, _, hop, rfl⟩) rfl
      rw [entryOf_id] at hc hr
      simp only [acceptId, hc, hr, Option.bind_eq_bind, Option.bind_some]
      rfl
  | none =>
      have hnone : ((makeEntries srt history).find? fun e =>
          decide (e.kind = .callEntry ∧ e.id = i)) = none := by
        rw [List.find?_eq_none]
        intro e he hprop
        obtain ⟨j, op, k, hj, rfl⟩ := (mem_makeEntries srt).mp he
        simp only [entryOf_id, decide_eq_true_eq] at hprop
        rw [hprop.2, hop] at hj
        cases hj
      simp only [acceptId, hnone, Option.bind_eq_bind, Option.bind_none]

end Made

/-! ## §2. Linearizable prefixes of a history. -/

/-- The operations at the indices `ids` can come first, in this order: the model accepts them,
and no operation that returned before one of them was called is missing before it. -/
structure LinearizablePrefix (M : Model I O S) (history : List (Operation I O))
    (ids : List ℕ) : Prop where
  nodup : ids.Nodup
  range : ∀ i ∈ ids, i < history.length
  legal : Legal (acceptAt M history) M.init ids
  order : ∀ pre i suf, ids = pre ++ i :: suf → ∀ j ∉ pre, ¬ PrecedesAt history j i

theorem entryPrefix_iff (M : CheckModel I O S) (srt : EntrySort I O)
    {history : List (Operation I O)} (hcall : ∀ op ∈ history, op.call ≤ op.ret) (ids : List ℕ) :
    EntryPrefix M (makeEntries srt history) history.length ids ↔
      LinearizablePrefix M.toModel history ids := by
  have hacc := acceptId_makeEntries srt M.toModel hcall
  constructor
  · intro h
    refine ⟨h.nodup, h.range, hacc ▸ h.legal, ?_⟩
    intro pre i suf heq j hj hprec
    obtain ⟨b, a, hb, -⟩ := id hprec
    exact h.order pre i suf heq j (List.getElem?_eq_some_iff.mp hb).1 hj
      ((precedes_iff srt).mpr hprec)
  · intro h
    refine ⟨h.nodup, h.range, hacc.symm ▸ h.legal, ?_⟩
    intro pre i suf heq j _ hj hprec
    exact h.order pre i suf heq j hj ((precedes_iff srt).mp hprec)

/-- `ids` are indices of the operations `ops`. -/
def IndexOf (history : List (Operation I O)) : List ℕ → List (Operation I O) → Prop :=
  List.Forall₂ fun i op => history[i]? = some op

theorem indexOf_range (history : List (Operation I O)) :
    IndexOf history (List.range history.length) history := by
  refine List.forall₂_iff_get.mpr ⟨List.length_range, ?_⟩
  intro i h₁ h₂
  simp

theorem IndexOf.legal {history : List (Operation I O)} {ids : List ℕ} {ops : List (Operation I O)}
    (h : IndexOf history ids ops) (M : Model I O S) (s : S) :
    Legal (acceptAt M history) s ids ↔ Legal M.accept s ops := by
  induction h generalizing s with
  | nil => exact Iff.rfl
  | cons hi _ ih => simp only [Legal, acceptAt, hi, Option.bind_some, ih]

theorem IndexOf.pairwise {history : List (Operation I O)} {ids : List ℕ}
    {ops : List (Operation I O)} (h : IndexOf history ids ops) :
    ids.Pairwise (fun i j => ¬ PrecedesAt history j i) ↔
      Respects Operation.call Operation.ret ops := by
  obtain ⟨hlen, hget⟩ := List.forall₂_iff_get.mp h
  unfold Respects
  rw [List.pairwise_iff_get, List.pairwise_iff_get]
  constructor
  · intro hp i j hij hlt
    have hi : i < ids.length := hlen.symm ▸ i.2
    have hj : j < ids.length := hlen.symm ▸ j.2
    exact hp ⟨i, hi⟩ ⟨j, hj⟩ hij ⟨_, _, hget j hj j.2, hget i hi i.2, hlt⟩
  · rintro hp i j hij ⟨b, a, hb, ha, hlt⟩
    have hi : i < ops.length := hlen ▸ i.2
    have hj : j < ops.length := hlen ▸ j.2
    have hbi := (hget j j.2 hj).symm.trans hb
    have hai := (hget i i.2 hi).symm.trans ha
    refine hp ⟨i, hi⟩ ⟨j, hj⟩ hij ?_
    rw [Option.some.injEq] at hbi hai
    rw [hbi, hai]
    exact hlt

/-- **Linearizations by index**; operations that occur twice are told apart by it. -/
theorem linearizableBy_iff_indices (M : Model I O S) (history : List (Operation I O)) :
    M.LinearizableBy history ↔
      ∃ ids, ids.Perm (List.range history.length) ∧
        ids.Pairwise (fun i j => ¬ PrecedesAt history j i) ∧
        Legal (acceptAt M history) M.init ids := by
  constructor
  · rintro ⟨l, hperm, hresp, hlegal⟩
    obtain ⟨ids, hidx, hids⟩ := List.perm_comp_forall₂ hperm (indexOf_range history).flip
    have hidx' : IndexOf history ids l := hidx.flip
    exact ⟨ids, hids, hidx'.pairwise.mpr hresp, (hidx'.legal M M.init).mpr hlegal⟩
  · rintro ⟨ids, hids, hpair, hlegal⟩
    obtain ⟨l, hidx, hperm⟩ := List.perm_comp_forall₂ hids (indexOf_range history)
    have hidx' : IndexOf history ids l := hidx
    exact ⟨l, hperm, hidx'.pairwise.mp hpair, (hidx'.legal M M.init).mp hlegal⟩

/-- **The problem of a history has a solution** if and only if the history is linearizable. -/
theorem solvable_makeEntries (M : CheckModel I O S) (srt : EntrySort I O)
    {history : List (Operation I O)} (hcall : ∀ op ∈ history, op.call ≤ op.ret) :
    (checkProblem M (makeEntries srt history)).Solvable (checkRoot M history.length) ↔
      M.LinearizableBy history := by
  rw [solvable_iff (makeEntries_wf srt hcall), linearizableBy_iff_indices M.toModel history,
    acceptId_makeEntries srt M.toModel hcall]
  simp only [precedes_iff]

/-! ## §3. The verdict. -/

/-- **`checkSingle` decides linearizability**: on the entries of a history whose operations
return after their calls it returns, without a panic, and the answer is `true` if and only if
the history is linearizable. -/
theorem checkSingle_iff_linearizable (M : CheckModel I O S) (srt : EntrySort I O)
    {history : List (Operation I O)} (hcall : ∀ op ∈ history, op.call ≤ op.ret)
    (hequal : EqualSound M) (computePartial : Bool) {fuel : ℕ}
    (hfuel : checkBound (2 * history.length) ≤ fuel) :
    ∃ ok longest,
      checkSingle M (makeEntries srt history) computePartial fuel = some (some (ok, longest)) ∧
      (ok = true ↔ M.LinearizableBy history) := by
  have hwf := makeEntries_wf srt hcall
  obtain ⟨ok, longest, hrun, hverdict⟩ := checkSingle_total hwf hequal computePartial
    fuel (by rw [hwf.length_eq]; exact hfuel)
  refine ⟨ok, longest, hrun, ?_⟩
  rw [hverdict.solvable, solvable_makeEntries M srt hcall]

/-- Calls before returns. -/
def EntryKind.rank : EntryKind → ℕ
  | .callEntry => 0
  | .returnEntry => 1

theorem Entry.less_eq_false_iff {a b : Entry I O} : b.less a = false ↔
    a.time < b.time ∨ (a.time = b.time ∧ a.kind.rank ≤ b.kind.rank) := by
  unfold Entry.less
  by_cases htime : b.time = a.time
  · rw [if_neg (not_not.mpr htime), decide_eq_false_iff_not]
    cases ha : a.kind <;> cases hb : b.kind <;> simp [EntryKind.rank, htime]
  · rw [if_pos htime, decide_eq_false_iff_not]
    omega

/-- A sort by `Less` that is stable. -/
def stableSort (I O : Type) : EntrySort I O where
  sort es := es.mergeSort fun a b => !b.less a
  perm es := List.mergeSort_perm es _
  sorted es := by
    refine (List.pairwise_mergeSort ?_ ?_ es).imp fun h => by simpa using h
    · intro a b c hab hbc
      rw [Bool.not_eq_true', Entry.less_eq_false_iff] at hab hbc ⊢
      omega
    · intro a b
      rw [Bool.or_eq_true, Bool.not_eq_true', Bool.not_eq_true', Entry.less_eq_false_iff,
        Entry.less_eq_false_iff]
      omega

/-- Two operations that overlap: `put(a, x)` and `get(a) -> x`. -/
def overlapping : List KvOp :=
  [⟨0, ⟨1, [97], [120]⟩, 0, ⟨[]⟩, 2⟩, ⟨1, ⟨0, [97], []⟩, 1, ⟨[120]⟩, 3⟩]

theorem checkSingle_overlapping :
    ∃ longest, checkSingle (fillDefault ⟨none, none, [], kvStep, none⟩)
      (makeEntries (stableSort KvInput KvOutput) overlapping) true (checkBound 4) =
        some (some (true, longest)) := by
  let M : CheckModel KvInput KvOutput GoString := fillDefault ⟨none, none, [], kvStep, none⟩
  have hlin : M.LinearizableBy overlapping := by
    refine ⟨overlapping, .refl _, by unfold Respects; decide, ?_⟩
    exact ⟨_, rfl, _, rfl, trivial⟩
  have hcall : ∀ op ∈ overlapping, op.call ≤ op.ret := by decide
  obtain ⟨ok, longest, hrun, hok⟩ := checkSingle_iff_linearizable M (stableSort KvInput KvOutput)
    hcall (equalSound_shallowEqual rfl) true (Nat.le_refl (checkBound 4))
  rw [hok.mpr hlin] at hrun
  exact ⟨longest, hrun⟩

end ComputerScience.Porcupine
