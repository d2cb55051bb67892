/-
  ComputerScience.Porcupine.Prefixes
  ──────────────────────────────────
  **LINEARIZABLE PREFIXES OF A LIST OF ENTRIES.**

  A way through the search problem of `checkSingle` is an order of some of the operations that
  the model accepts and in which no operation comes before one that had returned when it was
  called.  A complete one is a linearization.

  Main results:
    • `mem_moves_iff` — an operation can come next if no other one that is left precedes it,
    • `path_iff` — the ways through the problem are the linearizable prefixes,
    • `solvable_iff` — the problem has a solution if and only if there is a linearization.
-/
import ComputerScience.Porcupine.CheckSingle

namespace ComputerScience.Porcupine

open ComputerScience.Lib

variable {I O S : Type} {M : CheckModel I O S} {es : List (Entry I O)} {n : ℕ}

/-! ## §1. What can come next. -/

/-- The return entry of operation `j` comes before the call entry of operation `i`. -/
def Precedes (es : List (Entry I O)) (j i : ℕ) : Prop :=
  ∃ r c, [r, c].Sublist es ∧ r.kind = .returnEntry ∧ r.id = j ∧ c.kind = .callEntry ∧ c.id = i

theorem remaining_map_snd (es : List (Entry I O)) (L : Bitset) :
    (remaining es L).map Prod.snd = es.filter fun e => !L.has e.id := by
  conv_rhs => rw [← numbered_map_snd es]
  rw [List.filter_map]
  rfl

/-- **An operation can come next** if no other one that is left precedes it. -/
theorem mem_moves_iff (hwf : WfEntries es n) {L : Bitset} {i : ℕ} :
    i ∈ frontCalls (remaining es L) ↔
      i < n ∧ L.has i = false ∧ ∀ j, L.has j = false → ¬ Precedes es j i := by
  constructor
  · intro hi
    obtain ⟨pre, x, e, suf, hrem, hpre, hcall, rfl⟩ := mem_frontCalls hi
    have hin : (x, e) ∈ remaining es L := by
      rw [hrem]
      simp
    refine ⟨(hwf.mem_iff .callEntry e.id).mp ⟨e, mem_of_remaining hin, hcall, rfl⟩,
      (mem_remaining.mp hin).2, ?_⟩
    rintro j hj ⟨r, c, hsub, hret, rfl, hccall, hcid⟩
    have hsub' : [r, c].Sublist ((remaining es L).map Prod.snd) := by
      have := hsub.filter fun e => !L.has e.id
      rw [remaining_map_snd]
      simpa [hj, hcid, (mem_remaining.mp hin).2] using this
    -- the entries before `e` are calls, and none behind it is a call of its operation
    have hnodup := remaining_nodup hwf L
    rw [hrem, List.map_append, List.map_cons] at hnodup
    have hpair : ((remaining es L).map Prod.snd).Pairwise fun a b =>
        ¬ (a.kind = .returnEntry ∧ b.kind = .callEntry ∧ b.id = e.id) := by
      rw [hrem, List.map_append, List.map_cons, List.pairwise_append, List.pairwise_cons]
      have hlast : ∀ q ∈ suf, ¬ (q.2.kind = .callEntry ∧ q.2.id = e.id) := by
        rintro q hq ⟨hk, hid⟩
        have := (List.nodup_cons.mp (List.nodup_append.mp hnodup).2.1).1
        exact this (List.mem_map.mpr ⟨q, hq, by rw [hk, hid, hcall]⟩)
      have hfirst : ∀ p ∈ pre, ¬ p.2.kind = .returnEntry := by
        intro p hp hk
        have := of_decide_eq_true (hpre p hp)
        rw [hk] at this
        cases this
      refine ⟨?_, ⟨?_, ?_⟩, ?_⟩
      · rw [List.pairwise_map]
        exact List.pairwise_of_forall_mem_list fun p hp q _ h => hfirst p hp h.1
      · intro q hq h
        obtain ⟨q, hqsuf, rfl⟩ := List.mem_map.mp hq
        exact hlast q hqsuf h.2
      · rw [List.pairwise_map]
        exact List.pairwise_of_forall_mem_list fun p _ q hq h => hlast q hq h.2
      · intro p hp q _ h
        obtain ⟨p, hppre, rfl⟩ := List.mem_map.mp hp
        exact hfirst p hppre h.1
    exact List.pairwise_iff_forall_sublist.mp hpair hsub' ⟨hret, hccall, hcid⟩
  · rintro ⟨hi, hhas, hnone⟩
    obtain ⟨e, he, hcall, rfl⟩ := (hwf.mem_iff .callEntry i).mpr hi
    rw [← numbered_map_snd es] at he
    obtain ⟨⟨x, e⟩, hnum, rfl⟩ := List.mem_map.mp he
    obtain ⟨pre, suf, hrem⟩ := List.append_of_mem (mem_remaining.mpr ⟨hnum, hhas⟩)
    have hpre : ∀ p ∈ pre, isCall p = true := by
      intro p hp
      cases hk : p.2.kind with
      | callEntry => exact decide_eq_true hk
      | returnEntry =>
          have hpin : p ∈ remaining es L := by
            rw [hrem]
            exact List.mem_append_left _ hp
          refine absurd ⟨p.2, e, ?_, hk, rfl, hcall, rfl⟩ (hnone p.2.id (mem_remaining.mp hpin).2)
          have hsub : [p, (x, e)].Sublist (remaining es L) := by
            rw [hrem]
            exact List.Sublist.append (List.singleton_sublist.mpr hp)
              (List.singleton_sublist.mpr List.mem_cons_self)
          have hes : ((remaining es L).map Prod.snd).Sublist es := by
            rw [remaining_map_snd]
            exact List.filter_sublist
          exact (hsub.map Prod.snd).trans hes
    refine List.mem_map.mpr ⟨(x, e), ?_, rfl⟩
    rw [hrem, List.takeWhile_append_of_pos hpre,
      List.takeWhile_cons_of_pos (show isCall (x, e) = true from decide_eq_true hcall)]
    simp

/-! ## §2. Linearizable prefixes. -/

/-- The operations `ids`, in this order, can come first: the model accepts them, and each of
them comes behind all operations that precede it. -/
structure EntryPrefix (M : CheckModel I O S) (es : List (Entry I O)) (n : ℕ)
    (ids : List ℕ) : Prop where
  nodup : ids.Nodup
  range : ∀ i ∈ ids, i < n
  legal : Legal (acceptId M.toModel es) M.init ids
  order : ∀ pre i suf, ids = pre ++ i :: suf → ∀ j < n, j ∉ pre → ¬ Precedes es j i

theorem Precedes.lt (hwf : WfEntries es n) {j i : ℕ} (h : Precedes es j i) : j < n := by
  obtain ⟨r, c, hsub, hret, rfl, -⟩ := h
  exact (hwf.mem_iff .returnEntry r.id).mp
    ⟨r, hsub.subset List.mem_cons_self, hret, rfl⟩

/-- The same from a configuration of the search on. -/
theorem path_from_iff (hwf : WfEntries es n) (ids : List ℕ) :
    ∀ {L : Bitset} {s : S}, (∀ pos < n, pos / 64 < L.length) →
      ((∃ d, (checkProblem M es).Path (L, s) ids d) ↔
        ids.Nodup ∧ (∀ i ∈ ids, i < n ∧ L.has i = false) ∧ Legal (acceptId M.toModel es) s ids ∧
          ∀ pre i suf, ids = pre ++ i :: suf → ∀ j, L.has j = false → j ∉ pre →
            ¬ Precedes es j i) := by
  induction ids with
  | nil =>
      intro L s _
      refine ⟨fun _ => ⟨List.nodup_nil, nofun, trivial, ?_⟩, fun _ => ⟨_, rfl⟩⟩
      intro pre i suf heq
      simp at heq
  | cons m ids ih =>
      intro L s hwords
      constructor
      · rintro ⟨d, ⟨L', s'⟩, hm, hnext, hpath⟩
        obtain ⟨hlt, hhas, hfirst⟩ := (mem_moves_iff hwf).mp hm
        obtain ⟨s'', hs'', hmap⟩ := Option.bind_eq_some_iff.mp hnext
        obtain ⟨L'', hset, heq⟩ := Option.map_eq_some_iff.mp hmap
        cases heq
        obtain ⟨hlen, hL⟩ := Bitset.set_eq_some hset
        obtain ⟨hnodup, hrange, hlegal, horder⟩ := (ih (by rw [hlen]; exact hwords)).mp ⟨d, hpath⟩
        have hother : ∀ j, j ≠ m → L'.has j = L.has j := by
          intro j hj
          rw [hL, decide_eq_false hj, Bool.or_false]
        have hm' : L'.has m = true := by
          rw [hL, decide_eq_true rfl, Bool.or_true]
        refine ⟨List.nodup_cons.mpr ⟨?_, hnodup⟩, ?_, ⟨s', hs'', hlegal⟩, ?_⟩
        · intro hin
          rw [(hrange m hin).2] at hm'
          cases hm'
        · intro i hi
          rcases List.mem_cons.mp hi with rfl | hi
          · exact ⟨hlt, hhas⟩
          · obtain ⟨hi', hf⟩ := hrange i hi
            refine ⟨hi', ?_⟩
            rw [hL, Bool.or_eq_false_iff] at hf
            exact hf.1
        · intro pre i suf heq j hj hpre
          cases pre with
          | nil =>
              obtain ⟨rfl, -⟩ := List.cons_eq_cons.mp heq
              exact hfirst j hj
          | cons p pre =>
              rw [List.cons_append, List.cons_eq_cons] at heq
              obtain ⟨rfl, rfl⟩ := heq
              rw [List.mem_cons, not_or] at hpre
              exact horder pre i suf rfl j (by rw [hother j hpre.1]; exact hj) hpre.2
      · rintro ⟨hnodup, hrange, ⟨s', hs', hlegal⟩, horder⟩
        obtain ⟨hnotin, hnodup⟩ := List.nodup_cons.mp hnodup
        obtain ⟨hlt, hhas⟩ := hrange m List.mem_cons_self
        obtain ⟨L', hset, hlen, hL⟩ := Bitset.set_spec (hwords m hlt)
        obtain ⟨d, hpath⟩ := (ih (L := L') (s := s') (by rw [hlen]; exact hwords)).mpr (by
          refine ⟨hnodup, ?_, hlegal, ?_⟩
          · intro i hi
            obtain ⟨hi', hf⟩ := hrange i (List.mem_cons_of_mem m hi)
            refine ⟨hi', ?_⟩
            have hne : i ≠ m := fun he => hnotin (he ▸ hi)
            rw [hL, hf, decide_eq_false hne]
            rfl
          · intro pre i suf heq j hj hpre
            rw [hL, Bool.or_eq_false_iff, decide_eq_false_iff_not] at hj
            refine horder (m :: pre) i suf (by rw [heq, List.cons_append]) j hj.1 ?_
            rw [List.mem_cons, not_or]
            exact ⟨hj.2, hpre⟩)
        refine ⟨d, (L', s'), ?_, ?_, hpath⟩
        · exact (mem_moves_iff hwf).mpr
            ⟨hlt, hhas, fun j hj => horder [] m ids rfl j hj List.not_mem_nil⟩
        · show (acceptId M.toModel es s m).bind _ = _
          rw [hs', Option.bind_some, hset, Option.map_some]

/-- **The ways through the problem are the linearizable prefixes.** -/
theorem path_iff (hwf : WfEntries es n) {ids : List ℕ} :
    (∃ d, (checkProblem M es).Path (checkRoot M n) ids d) ↔ EntryPrefix M es n ids := by
  have hfrom := path_from_iff (M := M) hwf ids (L := newBitset n) (s := M.init)
    fun pos hpos => Bitset.length_newBitset hpos
  have hnew : ∀ i, (newBitset n).has i = false := Bitset.has_newBitset n
  rw [show checkRoot M n = (newBitset n, M.init) from rfl, hfrom]
  constructor
  · rintro ⟨hnodup, hrange, hlegal, horder⟩
    exact ⟨hnodup, fun i hi => (hrange i hi).1, hlegal, fun pre i suf heq j _ hj =>
      horder pre i suf heq j (hnew j) hj⟩
  · intro h
    refine ⟨h.nodup, fun i hi => ⟨h.range i hi, hnew i⟩, h.legal, ?_⟩
    intro pre i suf heq j _ hj hprec
    exact h.order pre i suf heq j (hprec.lt hwf) hj hprec

/-- A list is ordered if everything behind an element is in relation to it. -/
theorem pairwise_iff_splits {α : Type} {R : α → α → Prop} {l : List α} :
    l.Pairwise R ↔ ∀ pre a suf, l = pre ++ a :: suf → ∀ b ∈ suf, R a b := by
  constructor
  · rintro h pre a suf rfl b hb
    exact (List.pairwise_cons.mp (List.pairwise_append.mp h).2.1).1 b hb
  · intro h
    induction l with
    | nil => exact List.Pairwise.nil
    | cons x l ih =>
        refine List.pairwise_cons.mpr ⟨h [] x l rfl, ih ?_⟩
        intro pre a suf heq
        exact h (x :: pre) a suf (by rw [heq, List.cons_append])

/-- Complete prefixes, in which every operation comes behind those that precede it. -/
theorem entryPrefix_perm_iff (hwf : WfEntries es n) {ids : List ℕ} (hids : ids.Perm (List.range n)) :
    EntryPrefix M es n ids ↔ ids.Pairwise (fun i j => ¬ Precedes es j i) ∧
      Legal (acceptId M.toModel es) M.init ids := by
  have hnodup : ids.Nodup := hids.nodup_iff.mpr List.nodup_range
  constructor
  · intro h
    refine ⟨pairwise_iff_splits.mpr ?_, h.legal⟩
    rintro pre i suf rfl j hj
    have hjin : j < n := h.range j (by simp [hj])
    refine h.order pre i suf rfl j hjin ?_
    intro hpre
    exact (List.nodup_append.mp hnodup).2.2 j hpre j (List.mem_cons_of_mem i hj) rfl
  · rintro ⟨hpair, hlegal⟩
    refine ⟨hnodup, fun i hi => List.mem_range.mp (hids.mem_iff.mp hi), hlegal, ?_⟩
    intro pre i suf heq j hj hpre hprec
    have hin : j ∈ ids := hids.mem_iff.mpr (List.mem_range.mpr hj)
    rw [heq, List.mem_append, List.mem_cons] at hin
    rcases hin with hin | rfl | hin
    · exact hpre hin
    · obtain ⟨r, c, hsub, hret, rfl, hcall, hid⟩ := hprec
      exact List.pairwise_iff_forall_sublist.mp hwf.order hsub ⟨hret, hcall, hid.symm⟩
    · exact pairwise_iff_splits.mp hpair pre i suf heq j hin hprec

/-- **A solution is a linearization**: an order of all operations that the model accepts and
in which no operation comes before one that precedes it. -/
theorem solvable_iff (hwf : WfEntries es n) :
    (checkProblem M es).Solvable (checkRoot M n) ↔
      ∃ ids, ids.Perm (List.range n) ∧ ids.Pairwise (fun i j => ¬ Precedes es j i) ∧
        Legal (acceptId M.toModel es) M.init ids := by
  have hperm : ∀ {ids : List ℕ} {d : Bitset × S},
      (checkProblem M es).Path (checkRoot M n) ids d →
      ((checkProblem M es).done d = true ↔ ids.Perm (List.range n)) := by
    intro ids d hpath
    obtain ⟨hmem, -, -⟩ := path_root hwf hpath
    obtain ⟨hnodup, hrange, -⟩ := path_has hwf hpath
    rw [show (checkProblem M es).done d = (remaining es d.1).isEmpty from rfl, List.isEmpty_iff,
      remaining_eq_nil_iff hwf, List.perm_ext_iff_of_nodup hnodup List.nodup_range]
    constructor
    · intro hall i
      rw [List.mem_range]
      exact ⟨fun hi => (hrange i hi).2, fun hi => (hmem i).mp (hall i hi)⟩
    · intro hall i hi
      exact (hmem i).mpr ((hall i).mpr (List.mem_range.mpr hi))
  constructor
  · rintro ⟨ids, d, hpath, hdone⟩
    have hids := (hperm hpath).mp hdone
    exact ⟨ids, hids, (entryPrefix_perm_iff hwf hids).mp ((path_iff hwf).mp ⟨d, hpath⟩)⟩
  · rintro ⟨ids, hids, hlin⟩
    obtain ⟨d, hpath⟩ := (path_iff hwf).mpr ((entryPrefix_perm_iff hwf hids).mpr hlin)
    exact ⟨ids, d, hpath, (hperm hpath).mpr hids⟩

end ComputerScience.Porcupine
