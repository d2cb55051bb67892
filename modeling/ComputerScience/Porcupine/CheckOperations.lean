/-
  ComputerScience.Porcupine.CheckOperations
  ─────────────────────────────────────────
  **CHECKING A HISTORY OF OPERATIONS** (`checkOperations` in `porcupine/checker.go`, with
  `KvModel` of `models/kv.go`).

  The history is split by `Partition`, each part is made into entries, and `checkParallel`
  checks the parts.  For `KvModel` the parts are the keys, and by the locality of
  linearizability the answer is about the store as a whole.

  Main results:
    • `checkOperations_verdict` — the answer for any model, in terms of its parts,
    • `checkOperations_partials` — the partial linearizations that are returned with it,
    • `checkOperations_kv` — every check with `KvModel` ends, and the answer is about one map
      from keys to strings.
-/
import ComputerScience.Porcupine.Histories
import ComputerScience.Porcupine.Parallel

namespace ComputerScience.Porcupine

open ComputerScience.Lib

variable {I O S : Type}

/-! ## §1. The program. -/

/-- `checkOperations(model, history, verbose, timeout)` -/
def checkOperations [DecidableEq S] (srt : EntrySort I O) (ord : ℕ → PointerOrder)
    (model : UserModel I O S) (history : List (Operation I O)) (verbose timeout : Bool) :
    System (Parallel I O S) :=
  let model := fillDefault model
  let partitions := model.partition history
  checkParallel model ord (partitions.map (makeEntries srt)) verbose timeout

/-- `KvModel`: neither `PartitionEvent` nor `Equal` is given. -/
def kvUserModel (ord : MapOrder) : UserModel KvInput KvOutput GoString where
  partition := some (kvPartition ord)
  partitionEvent := none
  init := []
  step := kvStep
  equal := none

theorem kvUserModel_equalSound (ord : MapOrder) : EqualSound (fillDefault (kvUserModel ord)) :=
  equalSound_shallowEqual rfl

/-! ## §2. The answer for the parts. -/

theorem solv_makeEntries (M : CheckModel I O S) (srt : EntrySort I O)
    {history : List (Operation I O)} (hcall : ∀ op ∈ history, op.call ≤ op.ret) :
    Solv M (makeEntries srt history) ↔ M.LinearizableBy history := by
  have hwf := makeEntries_wf srt hcall
  have hhalf : (makeEntries srt history).length / 2 = history.length := by
    rw [hwf.length_eq]
    omega
  rw [Solv, hhalf, solvable_makeEntries M srt hcall]

theorem parts_wf (srt : EntrySort I O) {parts : List (List (Operation I O))}
    (hcall : ∀ part ∈ parts, ∀ op ∈ part, op.call ≤ op.ret) :
    ∀ es ∈ parts.map (makeEntries srt), WfEntries es (es.length / 2) := by
  intro es hes
  obtain ⟨part, hpart, rfl⟩ := List.mem_map.mp hes
  have hwf := makeEntries_wf srt (hcall part hpart)
  have hhalf : (makeEntries srt part).length / 2 = part.length := by
    rw [hwf.length_eq]
    omega
  rw [hhalf]
  exact hwf

theorem solv_parts_iff (M : CheckModel I O S) (srt : EntrySort I O)
    {parts : List (List (Operation I O))}
    (hcall : ∀ part ∈ parts, ∀ op ∈ part, op.call ≤ op.ret) :
    (∀ es ∈ parts.map (makeEntries srt), Solv M es) ↔ ∀ part ∈ parts, M.LinearizableBy part := by
  rw [List.forall_mem_map]
  constructor
  · intro h part hpart
    exact (solv_makeEntries M srt (hcall part hpart)).mp (h part hpart)
  · intro h part hpart
    exact (solv_makeEntries M srt (hcall part hpart)).mpr (h part hpart)

/-- **The answer for any model**: `Ok` only if all parts are linearizable, `Illegal` only if
one is not. -/
theorem checkOperations_verdict [DecidableEq S] (srt : EntrySort I O) (ord : ℕ → PointerOrder)
    (model : UserModel I O S) {history : List (Operation I O)} {verbose timeout : Bool}
    (hequal : EqualSound (fillDefault model))
    (hcall : ∀ part ∈ (fillDefault model).partition history, ∀ op ∈ part, op.call ≤ op.ret)
    {s : Parallel I O S} {result : CheckResult} {info : Option (LinearizationInfo I O)}
    (hreach : (checkOperations srt ord model history verbose timeout).Reachable s)
    (hfinished : s.main = .finished result info) :
    (result = .ok → ∀ part ∈ (fillDefault model).partition history,
        (fillDefault model).LinearizableBy part) ∧
      (result = .illegal → ∃ part ∈ (fillDefault model).partition history,
        ¬ (fillDefault model).LinearizableBy part) ∧
      (result = .unknown → timeout = true) := by
  obtain ⟨hok, hillegal, hunknown⟩ := checkParallel_verdict (parts_wf srt hcall) hequal hreach
    hfinished
  refine ⟨fun hr => (solv_parts_iff _ srt hcall).mp (hok hr), ?_, hunknown⟩
  intro hr
  obtain ⟨es, hes, hnot⟩ := hillegal hr
  by_contra hall
  push Not at hall
  exact hnot ((solv_parts_iff _ srt hcall).mpr hall es hes)

/-- `range` in the order of insertion. -/
def pointerOrder : PointerOrder := ⟨id, fun _ => List.Perm.refl _⟩

/-- A check without a timer of two operations that overlap comes to an answer. -/
theorem overlapping_finishes (verbose : Bool) : ∃ s result info,
    (checkOperations (stableSort KvInput KvOutput) (fun _ => pointerOrder)
      (kvUserModel insertionOrder) overlapping verbose false).Reachable s ∧
      s.main = .finished result info := by
  have hcall : ∀ part ∈ (fillDefault (kvUserModel insertionOrder)).partition overlapping,
      ∀ op ∈ part, op.call ≤ op.ret := by decide
  have hends := checkParallel_ends (parts_wf (stableSort KvInput KvOutput) hcall)
    (kvUserModel_equalSound insertionOrder) (fun _ => pointerOrder) verbose false
  obtain ⟨s, hreach, -, -, hmain⟩ := hends.exists_good rfl
  rw [if_neg (by decide)] at hmain
  obtain ⟨result, info, hfinished⟩ := hmain
  exact ⟨s, result, info, hreach, hfinished⟩

/-- It comes to the right one. -/
theorem checkOperations_verdict_overlapping : ∃ s info,
    (checkOperations (stableSort KvInput KvOutput) (fun _ => pointerOrder)
      (kvUserModel insertionOrder) overlapping false false).Reachable s ∧
    s.main = .finished .ok info := by
  obtain ⟨s, result, info, hreach, hfinished⟩ := overlapping_finishes false
  obtain ⟨-, hillegal, hunknown⟩ := checkOperations_verdict (stableSort KvInput KvOutput)
    (fun _ => pointerOrder) (kvUserModel insertionOrder) (kvUserModel_equalSound _) (by decide)
    hreach hfinished
  refine ⟨s, info, hreach, ?_⟩
  cases result with
  | ok => exact hfinished
  | illegal =>
      obtain ⟨part, hpart, hnot⟩ := hillegal rfl
      have hone : (fillDefault (kvUserModel insertionOrder)).partition overlapping =
          [overlapping] := by decide
      rw [hone, List.mem_singleton] at hpart
      subst hpart
      refine absurd ⟨overlapping, .refl _, by unfold Respects; decide, ?_⟩ hnot
      exact ⟨_, rfl, _, rfl, trivial⟩
  | unknown => exact absurd (hunknown rfl) (by decide)

/-- **The partial linearizations for any model**: they are read when the goroutines of all parts
have stored theirs and exited.  For each part there are linearizable prefixes only, and unless
the timer fired, every operation that is in some linearizable prefix is in one of them that is
as long. -/
theorem checkOperations_partials [DecidableEq S] (srt : EntrySort I O) (ord : ℕ → PointerOrder)
    (model : UserModel I O S) {history : List (Operation I O)} {timeout : Bool}
    (hequal : EqualSound (fillDefault model))
    (hcall : ∀ part ∈ (fillDefault model).partition history, ∀ op ∈ part, op.call ≤ op.ret) :
    (∀ (s s' : Parallel I O S) result info,
      (checkOperations srt ord model history true timeout).Reachable s →
      (checkOperations srt ord model history true timeout).step s s' →
      (∀ r i, s.main ≠ .finished r i) → s'.main = .finished result info →
        s.goroutines.length = ((fillDefault model).partition history).length ∧
        (∀ g ∈ s.goroutines, isExited g = 1) ∧ (∀ slot ∈ s.longest, slot.isSome = true) ∧
        ∃ li, info = some li ∧
          li.partialLinearizations = s.longest.mapIdx fun i l => partials (ord i) l) ∧
    ∀ (s : Parallel I O S) result info,
      (checkOperations srt ord model history true timeout).Reachable s →
      s.main = .finished result info →
        ∃ li, info = some li ∧
          ∀ (j : ℕ) part, ((fillDefault model).partition history)[j]? = some part →
            ∃ ps, li.partialLinearizations[j]? = some ps ∧
              (∀ p ∈ ps, LinearizablePrefix (fillDefault model).toModel part p) ∧
              (s.timedOut = false →
                ∀ ids, LinearizablePrefix (fillDefault model).toModel part ids →
                  ∀ i ∈ ids, ∃ p ∈ ps, i ∈ p ∧ ids.length ≤ p.length) := by
  constructor
  · intro s s' result info hreach hstep hbefore hafter
    obtain ⟨hlen, hexited, hslots, hinfo⟩ :=
      checkParallel_reads (parts_wf srt hcall) hequal hreach hstep hbefore hafter
    rw [List.length_map] at hlen
    exact ⟨hlen, hexited, hslots, _, hinfo, rfl⟩
  · intro s result info hreach hfinished
    obtain ⟨li, rfl, -, -, hli⟩ := checkParallel_info (parts_wf srt hcall) hequal hreach hfinished
    refine ⟨li, rfl, ?_⟩
    intro j part hj
    have hpart := hcall part (List.mem_of_getElem? hj)
    have hwf := makeEntries_wf srt hpart
    have hhalf : (makeEntries srt part).length / 2 = part.length := by
      rw [hwf.length_eq]
      omega
    obtain ⟨ps, hps, hsound, hmaximal⟩ := hli j (makeEntries srt part) (by
      rw [List.getElem?_map, hj, Option.map_some])
    rw [hhalf] at hsound hmaximal
    -- the ways through the problem of the part are its linearizable prefixes
    have hpath : ∀ ids, (∃ d, (checkProblem (fillDefault model) (makeEntries srt part)).Path
        (checkRoot (fillDefault model) part.length) ids d) ↔
        LinearizablePrefix (fillDefault model).toModel part ids :=
      fun ids => (path_iff hwf).trans (entryPrefix_iff _ srt hpart ids)
    refine ⟨ps, hps, fun p hp => (hpath p).mp (hsound p hp), ?_⟩
    intro htime ids hids i hi
    obtain ⟨d, hd⟩ := (hpath ids).mpr hids
    exact hmaximal htime ids d hd i hi

theorem checkOperations_partials_overlapping : ∃ s result info,
    (checkOperations (stableSort KvInput KvOutput) (fun _ => pointerOrder)
      (kvUserModel insertionOrder) overlapping true false).Reachable s ∧
    s.main = .finished result info ∧ ∃ li, info = some li ∧ ∀ (j : ℕ) part,
      ((fillDefault (kvUserModel insertionOrder)).partition overlapping)[j]? = some part →
      ∃ ps, li.partialLinearizations[j]? = some ps ∧
        (∀ p ∈ ps, LinearizablePrefix (fillDefault (kvUserModel insertionOrder)).toModel part p) ∧
        (s.timedOut = false → ∀ ids,
          LinearizablePrefix (fillDefault (kvUserModel insertionOrder)).toModel part ids →
          ∀ i ∈ ids, ∃ p ∈ ps, i ∈ p ∧ ids.length ≤ p.length) := by
  obtain ⟨s, result, info, hreach, hfinished⟩ := overlapping_finishes true
  refine ⟨s, result, info, hreach, hfinished, ?_⟩
  exact (checkOperations_partials (stableSort KvInput KvOutput) (fun _ => pointerOrder)
    (kvUserModel insertionOrder) (kvUserModel_equalSound _) (by decide)).2 s result info hreach
    hfinished

/-! ## §3. The answer for the key/value store. -/

/-- The parts are linearizable if and only if the store is. -/
theorem kvParts_linearizable_iff (ord : MapOrder) {history : List KvOp}
    (hcall : ∀ op ∈ history, op.call ≤ op.ret) :
    (∀ part ∈ kvPartition ord history, (kvModel ord).LinearizableBy part) ↔
      StoreLinearizable history := by
  obtain ⟨keys, -, hmem, hpart⟩ := kvPartition_eq ord history
  rw [StoreLinearizable, storeStep_eq_keyStep ord,
    linearizable_keyed_iff _ _ _ (kvModel ord).accept _ _ hcall, hpart]
  constructor
  · intro hall k
    by_cases hk : k ∈ keys
    · exact hall _ (List.mem_map_of_mem hk)
    · have hnil : ofKey (fun op : KvOp => op.input.key) k history = [] := by
        rw [ofKey, List.filter_eq_nil_iff]
        intro op hop hkey
        exact hk ((hmem k).mpr ⟨op, hop, of_decide_eq_true hkey⟩)
      rw [hnil]
      exact ⟨[], List.Perm.refl _, List.Pairwise.nil, trivial⟩
  · intro hall part hp
    obtain ⟨k, -, rfl⟩ := List.mem_map.mp hp
    exact hall k

theorem kvParts_call_le (ord : MapOrder) {history : List KvOp}
    (hcall : ∀ op ∈ history, op.call ≤ op.ret) :
    ∀ part ∈ kvPartition ord history, ∀ op ∈ part, op.call ≤ op.ret := by
  obtain ⟨keys, -, -, hpart⟩ := kvPartition_eq ord history
  rw [hpart]
  intro part hp op hop
  obtain ⟨k, -, rfl⟩ := List.mem_map.mp hp
  exact hcall op (List.mem_filter.mp hop).1

theorem kvPartition_eq_nil_iff (ord : MapOrder) (history : List KvOp) :
    kvPartition ord history = [] ↔ history = [] := by
  obtain ⟨keys, -, hmem, hpart⟩ := kvPartition_eq ord history
  rw [hpart, List.map_eq_nil_iff]
  constructor
  · rintro rfl
    rw [List.eq_nil_iff_forall_not_mem]
    intro op hop
    exact List.not_mem_nil ((hmem op.input.key).mpr ⟨op, hop, rfl⟩)
  · rintro rfl
    rw [List.eq_nil_iff_forall_not_mem]
    intro k hk
    obtain ⟨op, hop, -⟩ := (hmem k).mp hk
    cases hop

/-- How a check of a key/value history ends. -/
def KvChecked (history : List KvOp) (timeout : Bool)
    (s : Parallel KvInput KvOutput GoString) : Prop :=
  s.crashed = false ∧ (∀ g ∈ s.goroutines, isExited g = 1) ∧
    if history = [] ∧ timeout = false then s.main = .select
    else ∃ result info, s.main = .finished result info ∧
      (result = .ok → StoreLinearizable history) ∧
      (result = .illegal → ¬ StoreLinearizable history) ∧
      (result = .unknown → timeout = true)

/-- **The check of a key/value history**: whatever the interleaving it ends, without a panic,
with all goroutines gone, and the answer is right; `Unknown` is possible with a timer only.
If there are no operations and there is no timer, `select` waits forever. -/
theorem checkOperations_kv (srt : EntrySort KvInput KvOutput) (ord : ℕ → PointerOrder)
    (mapOrd : MapOrder) (history : List KvOp) (verbose timeout : Bool)
    (hcall : ∀ op ∈ history, op.call ≤ op.ret) :
    (checkOperations srt ord (kvUserModel mapOrd) history verbose timeout).EndsIn
      (KvChecked history timeout) := by
  have hwf := parts_wf srt (kvParts_call_le mapOrd hcall)
  have hequal := kvUserModel_equalSound mapOrd
  obtain ⟨hfinite, hgood⟩ := checkParallel_ends hwf hequal ord verbose timeout
  refine ⟨hfinite, ?_⟩
  intro s hreach hstuck
  obtain ⟨hcrashed, hexited, hmain⟩ := hgood s hreach hstuck
  refine ⟨hcrashed, hexited, ?_⟩
  have hempty : (kvPartition mapOrd history).map (makeEntries srt) = [] ↔ history = [] := by
    rw [List.map_eq_nil_iff, kvPartition_eq_nil_iff]
  simp only [hempty] at hmain
  by_cases hnone : history = [] ∧ timeout = false
  · rw [if_pos hnone] at hmain ⊢
    exact hmain
  · rw [if_neg hnone] at hmain ⊢
    obtain ⟨result, info, hfinished⟩ := hmain
    obtain ⟨hok, hillegal, hunknown⟩ := checkParallel_verdict hwf hequal hreach hfinished
    have hstore := (solv_parts_iff (fillDefault (kvUserModel mapOrd)) srt
      (kvParts_call_le mapOrd hcall)).trans (kvParts_linearizable_iff mapOrd hcall)
    refine ⟨result, info, hfinished, fun hr => hstore.mp (hok hr), ?_, hunknown⟩
    intro hr hlin
    obtain ⟨es, hes, hnot⟩ := hillegal hr
    exact hnot (hstore.mpr hlin es hes)

theorem checkOperations_kv_twoKeyHistory :
    (checkOperations (stableSort KvInput KvOutput) (fun _ => pointerOrder)
      (kvUserModel insertionOrder) twoKeyHistory true true).EndsIn
      (KvChecked twoKeyHistory true) :=
  checkOperations_kv _ _ insertionOrder twoKeyHistory true true (by decide)

end ComputerScience.Porcupine
