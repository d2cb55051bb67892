/-
  ComputerScience.Porcupine.LinkedEntries
  ───────────────────────────────────────
  **THE LINKED LIST OF ENTRIES** (`makeLinkedEntries`, `lift` and `unlift` in
  `porcupine/checker.go`).

  The entries of a complete history are numbered by the addresses their nodes get.  The list
  that hangs behind the head entry consists at every moment of the entries of the operations
  that are not linearized, in the order of the history.

  Main results:
    • `makeLinkedEntries_spec` — the list that is built, and where `match` points to,
    • `remaining_split` — a call entry with its return entry in such a list,
    • `lift_spec` — `lift` takes the two out, and `unlift` gives back the very heap.
-/
import ComputerScience.Porcupine.Checker

namespace ComputerScience.Porcupine

open ComputerScience.Lib

variable {I O S : Type}

/-! ## §1. The list that is built. -/

/-- The entries with the addresses of their nodes: the last one is allocated first. -/
def numbered : List (Entry I O) → List (ℕ × Entry I O)
  | [] => []
  | e :: es => (es.length, e) :: numbered es

/-- The node of the first return entry of operation `id`. -/
def mateIn : List (Entry I O) → ℕ → Option ℕ
  | [], _ => none
  | e :: es, id =>
      if e.kind = .returnEntry ∧ e.id = id then some es.length else mateIn es id

/-- The nodes, without their links. -/
def nodeVals : List (Entry I O) → List (ℕ × NodeVal I O)
  | [] => []
  | e :: es =>
      (es.length, ⟨some e.value, if e.kind = .returnEntry then none else mateIn es e.id, e.id⟩) ::
      nodeVals es

theorem numbered_map_snd (es : List (Entry I O)) : (numbered es).map Prod.snd = es := by
  induction es with
  | nil => rfl
  | cons e es ih => rw [numbered, List.map_cons, ih]

theorem numbered_fst_lt {es : List (Entry I O)} {p : ℕ × Entry I O} (hp : p ∈ numbered es) :
    p.1 < es.length := by
  induction es with
  | nil => cases hp
  | cons e es ih =>
      rw [List.length_cons]
      rcases List.mem_cons.mp hp with rfl | hp
      · exact Nat.lt_succ_self _
      · exact Nat.lt_succ_of_lt (ih hp)

theorem numbered_nodup (es : List (Entry I O)) : ((numbered es).map Prod.fst).Nodup := by
  induction es with
  | nil => exact List.nodup_nil
  | cons e es ih =>
      rw [numbered, List.map_cons, List.nodup_cons]
      refine ⟨?_, ih⟩
      intro hin
      obtain ⟨p, hp, heq⟩ := List.mem_map.mp hin
      have := numbered_fst_lt hp
      omega

/-- A node that is new and has no links yet is put before the first one. -/
theorem insertBefore_spec {h : NodeHeap I O} {n : ℕ} {v : NodeVal I O} {l : List ℕ}
    (hn : h n = some ⟨v, none, none⟩) (hl : Linked h l) (hnodup : (n :: l).Nodup) :
    ∃ h', insertBefore h n l.head? = some h' ∧ Linked h' (n :: l) ∧ SameVals h h' ∧
      ∀ a, a ∉ n :: l → h' a = h a := by
  obtain ⟨hnl, hnd⟩ := List.nodup_cons.mp hnodup
  cases l with
  | nil =>
      refine ⟨h, rfl, ⟨⟨v, hn⟩, trivial⟩, fun _ => rfl, fun _ _ => rfl⟩
  | cons m l =>
      obtain ⟨⟨vm, hvm⟩, hrest⟩ := hl
      have hmn : m ≠ n := fun he => hnl (he ▸ List.mem_cons_self)
      have hseg : Segment h none (m :: l) none := ⟨⟨vm, hvm⟩, hrest⟩
      have h₁ := hseg.setPrev hnd hvm (some n)
      refine ⟨Function.update (Function.update h m (some ⟨vm, l.head?.or none, some n⟩)) n
        (some ⟨v, some m, none⟩), ?_, ?_, ?_, ?_⟩
      · simp [insertBefore, DHeap.prev, DHeap.setPrev, DHeap.setNext, hvm, hn,
          Function.update_of_ne hmn.symm]
      · refine ⟨⟨v, Function.update_self ..⟩, h₁.congr ?_⟩
        intro a ha
        refine Function.update_of_ne ?_ _ _
        rintro rfl
        exact hnl ha
      · have hm' : SameVals h (Function.update h m (some ⟨vm, l.head?.or none, some n⟩)) :=
          SameVals.update hvm rfl
        refine hm'.trans (SameVals.update (n := ⟨v, none, none⟩) ?_ rfl)
        rw [Function.update_of_ne hmn.symm, hn]
      · intro a ha
        rw [List.mem_cons, List.mem_cons, not_or, not_or] at ha
        rw [Function.update_of_ne ha.1, Function.update_of_ne ha.2.1]

/-- What `makeLinkedEntries` has built from `es`. -/
structure LinkingOk (es : List (Entry I O)) (st : Linking I O) : Prop where
  fresh : st.fresh = es.length
  root : st.root = ((numbered es).map Prod.fst).head?
  linked : Linked st.heap ((numbered es).map Prod.fst)
  unallocated : ∀ a, es.length ≤ a → st.heap a = none
  vals : ∀ p ∈ nodeVals es, (st.heap p.1).map DNode.val = some p.2
  mates : ∀ id, st.mates id = mateIn es id

/-- A new node before the list. -/
theorem LinkingOk.insert {es : List (Entry I O)} {st : Linking I O} (h : LinkingOk es st)
    (v : NodeVal I O) :
    ∃ h', insertBefore (Function.update st.heap st.fresh (some ⟨v, none, none⟩)) st.fresh st.root =
        some h' ∧ Linked h' (es.length :: (numbered es).map Prod.fst) ∧
      (∀ a, es.length + 1 ≤ a → h' a = none) ∧
      (h' es.length).map DNode.val = some v ∧
      ∀ p ∈ nodeVals es, (h' p.1).map DNode.val = some p.2 := by
  have hlt : ∀ a ∈ (numbered es).map Prod.fst, a < es.length := by
    intro a ha
    obtain ⟨p, hp, rfl⟩ := List.mem_map.mp ha
    exact numbered_fst_lt hp
  have hold : ∀ a, a ≠ es.length →
      Function.update st.heap es.length (some ⟨v, none, none⟩) a = st.heap a :=
    fun a ha => Function.update_of_ne ha _ _
  have hnodup : (es.length :: (numbered es).map Prod.fst).Nodup :=
    List.nodup_cons.mpr ⟨fun hin => absurd (hlt _ hin) (Nat.lt_irrefl _), numbered_nodup es⟩
  obtain ⟨h', hins, hlinked, hvals, hsame⟩ := insertBefore_spec
    (h := Function.update st.heap es.length (some ⟨v, none, none⟩)) (Function.update_self ..)
    (h.linked.congr fun a ha => hold a (Nat.ne_of_lt (hlt a ha))) hnodup
  rw [h.fresh, h.root]
  refine ⟨h', hins, hlinked, ?_, ?_, ?_⟩
  · intro a ha
    have hne : a ≠ es.length := by omega
    rw [hsame a, hold a hne, h.unallocated a (by omega)]
    rw [List.mem_cons, not_or]
    refine ⟨hne, fun hin => ?_⟩
    have := hlt a hin
    omega
  · rw [hvals, Function.update_self]
    rfl
  · intro p hp
    have hval := h.vals p hp
    have hne : p.1 ≠ es.length := by
      intro heq
      rw [heq, h.unallocated _ (Nat.le_refl _)] at hval
      cases hval
    rw [hvals, hold p.1 hne, hval]

/-- **`makeLinkedEntries`** links the entries in their order. -/
theorem makeLinkedEntries_spec (es : List (Entry I O)) :
    ∃ st, makeLinkedEntries es = some st ∧ LinkingOk es st := by
  induction es with
  | nil => exact ⟨_, rfl, rfl, rfl, trivial, fun _ _ => rfl, nofun, fun _ => rfl⟩
  | cons e es ih =>
      obtain ⟨st, hst, hok⟩ := ih
      have hmem : ∀ (v : NodeVal I O) {h' : NodeHeap I O},
          (h' es.length).map DNode.val = some v →
          (∀ p ∈ nodeVals es, (h' p.1).map DNode.val = some p.2) →
          ∀ p ∈ (es.length, v) :: nodeVals es, (h' p.1).map DNode.val = some p.2 := by
        intro v h' hnew hold p hp
        rcases List.mem_cons.mp hp with rfl | hp
        · exact hnew
        · exact hold p hp
      rw [makeLinkedEntries, hst]
      cases hkind : e.kind with
      | returnEntry =>
          obtain ⟨h', hins, hlinked, hfree, hnew, hold⟩ := hok.insert ⟨some e.value, none, e.id⟩
          refine ⟨⟨h', st.fresh + 1, some st.fresh,
            Function.update st.mates e.id (some st.fresh)⟩, ?_, ?_⟩
          · simp [linkEntry, hkind, hins]
          · refine ⟨by rw [hok.fresh, List.length_cons], by rw [hok.fresh]; rfl, hlinked, hfree, ?_,
              ?_⟩
            · rw [nodeVals, if_pos hkind]
              exact hmem _ hnew hold
            · intro id
              by_cases hid : e.id = id
              · rw [mateIn, if_pos ⟨hkind, hid⟩, ← hid, ← hok.fresh]
                exact Function.update_self ..
              · rw [mateIn, if_neg (fun hc => hid hc.2), ← hok.mates]
                exact Function.update_of_ne (Ne.symm hid) _ _
      | callEntry =>
          have hcall : ¬ e.kind = .returnEntry := by
            rw [hkind]
            exact nofun
          obtain ⟨h', hins, hlinked, hfree, hnew, hold⟩ :=
            hok.insert ⟨some e.value, st.mates e.id, e.id⟩
          refine ⟨⟨h', st.fresh + 1, some st.fresh, st.mates⟩, ?_, ?_⟩
          · simp [linkEntry, hkind, hins]
          · refine ⟨by rw [hok.fresh, List.length_cons], by rw [hok.fresh]; rfl, hlinked, hfree, ?_,
              ?_⟩
            · rw [nodeVals, if_neg hcall, ← hok.mates]
              exact hmem _ hnew hold
            · intro id
              rw [mateIn, if_neg (fun hc => hcall hc.1), ← hok.mates]

/-! ## §2. Complete histories. -/

/-- A complete history of the operations `0..n-1`: a call and a return entry for each, the
call first. -/
structure WfEntries (es : List (Entry I O)) (n : ℕ) : Prop where
  perm : (es.map fun e => (e.kind, e.id)).Perm
    ((List.range n).flatMap fun i => [(.callEntry, i), (.returnEntry, i)])
  order : es.Pairwise fun a b => ¬ (a.kind = .returnEntry ∧ b.kind = .callEntry ∧ a.id = b.id)
  input : ∀ e ∈ es, e.kind = .callEntry → ∃ i, e.value = .input i
  output : ∀ e ∈ es, e.kind = .returnEntry → ∃ o, e.value = .output o

/-- The entries of the operations that are not in `L`. -/
def remaining (es : List (Entry I O)) (L : Bitset) : List (ℕ × Entry I O) :=
  (numbered es).filter fun p => !L.has p.2.id

section Wf

variable {es : List (Entry I O)} {n : ℕ} (hwf : WfEntries es n)
include hwf

theorem WfEntries.mem_iff (k : EntryKind) (i : ℕ) :
    (∃ e ∈ es, e.kind = k ∧ e.id = i) ↔ i < n := by
  have hmem := hwf.perm.mem_iff (a := (k, i))
  rw [List.mem_map, List.mem_flatMap] at hmem
  constructor
  · rintro ⟨e, he, rfl, rfl⟩
    obtain ⟨j, hj, hin⟩ := hmem.mp ⟨e, he, rfl⟩
    simp only [List.mem_cons, Prod.mk.injEq, List.not_mem_nil, or_false] at hin
    rcases hin with ⟨-, rfl⟩ | ⟨-, rfl⟩ <;> exact List.mem_range.mp hj
  · intro hi
    obtain ⟨e, he, heq⟩ := hmem.mpr ⟨i, List.mem_range.mpr hi, by cases k <;> simp⟩
    exact ⟨e, he, congrArg Prod.fst heq, congrArg Prod.snd heq⟩

theorem WfEntries.length_eq : es.length = 2 * n := by
  have hlen := hwf.perm.length_eq
  simpa [List.length_flatMap, Nat.mul_comm] using hlen

theorem WfEntries.nodup : (es.map fun e => (e.kind, e.id)).Nodup := by
  rw [hwf.perm.nodup_iff, List.nodup_flatMap]
  refine ⟨fun i _ => by simp, ?_⟩
  refine List.Pairwise.imp ?_ (List.nodup_range (n := n))
  intro i j hij
  simp [Function.onFun, hij.symm]

theorem remaining_nodup (L : Bitset) :
    ((remaining es L).map fun p => (p.2.kind, p.2.id)).Nodup := by
  have hsub : ((remaining es L).map fun p => (p.2.kind, p.2.id)).Sublist
      (((numbered es).map Prod.snd).map fun e => (e.kind, e.id)) := by
    rw [List.map_map]
    exact List.filter_sublist.map _
  rw [numbered_map_snd] at hsub
  exact hwf.nodup.sublist hsub

theorem remaining_order (L : Bitset) :
    (remaining es L).Pairwise fun a b =>
      ¬ (a.2.kind = .returnEntry ∧ b.2.kind = .callEntry ∧ a.2.id = b.2.id) := by
  have horder := hwf.order
  rw [← numbered_map_snd es, List.pairwise_map] at horder
  exact horder.filter _

/-- **A call entry and its return entry**, which comes behind it; no other entry belongs to
this operation. -/
theorem remaining_split {L : Bitset} {pre suf : List (ℕ × Entry I O)} {a : ℕ} {e : Entry I O}
    (hrem : remaining es L = pre ++ (a, e) :: suf) (hcall : e.kind = .callEntry) :
    ∃ b r s₁ s₂, suf = s₁ ++ (b, r) :: s₂ ∧ r.kind = .returnEntry ∧ r.id = e.id ∧
      ∀ L' : Bitset, (∀ i, L'.has i = (L.has i || decide (i = e.id))) →
        remaining es L' = pre ++ (s₁ ++ s₂) := by
  have hein : (a, e) ∈ remaining es L := by
    rw [hrem]
    simp
  obtain ⟨henum, hehas⟩ := List.mem_filter.mp hein
  have hees : e ∈ es := by
    rw [← numbered_map_snd es]
    exact List.mem_map.mpr ⟨(a, e), henum, rfl⟩
  obtain ⟨r, hres, hrkind, hrid⟩ :=
    (hwf.mem_iff .returnEntry e.id).mpr ((hwf.mem_iff .callEntry e.id).mp ⟨e, hees, hcall, rfl⟩)
  -- the return entry is in the list as well, behind the call
  obtain ⟨⟨b, r'⟩, hrnum, heq⟩ : ∃ p ∈ numbered es, p.2 = r := by
    rw [← numbered_map_snd es] at hres
    exact List.mem_map.mp hres
  obtain rfl : r' = r := heq
  have hrin : (b, r') ∈ remaining es L :=
    List.mem_filter.mpr ⟨hrnum, by simpa only [hrid] using hehas⟩
  have horder := remaining_order hwf L
  have hnodup := remaining_nodup hwf L
  rw [hrem] at hrin horder hnodup
  have hrsuf : (b, r') ∈ suf := by
    rcases List.mem_append.mp hrin with hpre | hin
    · have := (List.pairwise_append.mp horder).2.2 _ hpre (a, e) List.mem_cons_self
      exact absurd ⟨hrkind, hcall, hrid⟩ this
    · rcases List.mem_cons.mp hin with heq | hin
      · cases heq
        rw [hcall] at hrkind
        cases hrkind
      · exact hin
  obtain ⟨s₁, s₂, rfl⟩ := List.append_of_mem hrsuf
  refine ⟨b, r', s₁, s₂, rfl, hrkind, hrid, ?_⟩
  intro L' hL'
  -- no third entry with this number
  have hother : ∀ x ∈ pre ++ (s₁ ++ s₂), x.2.id ≠ e.id := by
    intro x hx hxid
    have hperm : (pre ++ (a, e) :: (s₁ ++ (b, r') :: s₂)).Perm
        ((a, e) :: (b, r') :: (pre ++ (s₁ ++ s₂))) := by
      refine List.perm_middle.trans (List.Perm.cons _ ?_)
      rw [← List.append_assoc, ← List.append_assoc]
      exact List.perm_middle
    have hnd := (hperm.map _).nodup_iff.mp hnodup
    simp only [List.map_cons, List.nodup_cons, List.mem_cons, not_or] at hnd
    obtain ⟨⟨-, he⟩, hr, -⟩ := hnd
    cases hk : x.2.kind with
    | callEntry => exact he (List.mem_map.mpr ⟨x, hx, by rw [hk, hxid, hcall]⟩)
    | returnEntry => exact hr (List.mem_map.mpr ⟨x, hx, by rw [hk, hxid, hrkind, hrid]⟩)
  have hfilter : remaining es L' = (remaining es L).filter fun p => !decide (p.2.id = e.id) := by
    unfold remaining
    rw [List.filter_filter]
    refine List.filter_congr fun p _ => ?_
    rw [hL', Bool.not_or, Bool.and_comm]
  have hkeep : ∀ l : List (ℕ × Entry I O), (∀ x ∈ l, x.2.id ≠ e.id) →
      (l.filter fun p => !decide (p.2.id = e.id)) = l := by
    intro l hl
    refine List.filter_eq_self.mpr fun x hx => ?_
    simp [hl x hx]
  rw [hfilter, hrem]
  simp only [List.filter_append, List.filter_cons, hrid]
  simp only [decide_true, Bool.not_true, Bool.false_eq_true, if_false]
  rw [hkeep pre fun x hx => hother x (List.mem_append_left _ hx),
    hkeep s₁ fun x hx => hother x (List.mem_append_right _ (List.mem_append_left _ hx)),
    hkeep s₂ fun x hx => hother x (List.mem_append_right _ (List.mem_append_right _ hx))]

end Wf

/-! ## §3. The nodes of a complete history. -/

/-- The nodes hold the entries: `match` is `nil` in a return entry, and points to the return
entry of the operation in a call entry. -/
structure NodesOk (es : List (Entry I O)) (h : NodeHeap I O) : Prop where
  ret : ∀ p ∈ numbered es, p.2.kind = .returnEntry →
    (h p.1).map DNode.val = some ⟨some p.2.value, none, p.2.id⟩
  call : ∀ p ∈ numbered es, p.2.kind = .callEntry → ∃ q ∈ numbered es,
    q.2.kind = .returnEntry ∧ q.2.id = p.2.id ∧
      (h p.1).map DNode.val = some ⟨some p.2.value, some q.1, p.2.id⟩

theorem NodesOk.same {es : List (Entry I O)} {h h' : NodeHeap I O} (hok : NodesOk es h)
    (hsame : SameVals h h') : NodesOk es h' := by
  refine ⟨fun p hp hk => (hsame p.1).trans (hok.ret p hp hk), ?_⟩
  intro p hp hk
  obtain ⟨q, hq, hqk, hqid, hval⟩ := hok.call p hp hk
  exact ⟨q, hq, hqk, hqid, (hsame p.1).trans hval⟩

theorem mateIn_spec {es : List (Entry I O)} {id : ℕ}
    (hex : ∃ r ∈ es, r.kind = .returnEntry ∧ r.id = id) :
    ∃ q ∈ numbered es, q.2.kind = .returnEntry ∧ q.2.id = id ∧ mateIn es id = some q.1 := by
  induction es with
  | nil =>
      obtain ⟨r, hr, -⟩ := hex
      cases hr
  | cons e es ih =>
      by_cases he : e.kind = .returnEntry ∧ e.id = id
      · exact ⟨(es.length, e), List.mem_cons_self, he.1, he.2, if_pos he⟩
      · obtain ⟨r, hr, hrk⟩ := hex
        rcases List.mem_cons.mp hr with rfl | hr
        · exact absurd hrk he
        · obtain ⟨q, hq, hqk, hqid, hmate⟩ := ih ⟨r, hr, hrk⟩
          exact ⟨q, List.mem_cons_of_mem _ hq, hqk, hqid, by rw [mateIn, if_neg he, hmate]⟩

theorem nodeVals_ret {es : List (Entry I O)} {p : ℕ × Entry I O} (hp : p ∈ numbered es)
    (hk : p.2.kind = .returnEntry) : (p.1, ⟨some p.2.value, none, p.2.id⟩) ∈ nodeVals es := by
  induction es with
  | nil => cases hp
  | cons e es ih =>
      rcases List.mem_cons.mp hp with rfl | hp
      · rw [nodeVals, if_pos hk]
        exact List.mem_cons_self
      · exact List.mem_cons_of_mem _ (ih hp)

theorem nodeVals_call {es : List (Entry I O)} {p : ℕ × Entry I O} (hp : p ∈ numbered es)
    (hk : p.2.kind = .callEntry)
    (hret : ∀ pre e suf, es = pre ++ e :: suf → e.kind = .callEntry →
      ∃ r ∈ suf, r.kind = .returnEntry ∧ r.id = e.id) :
    ∃ q ∈ numbered es, q.2.kind = .returnEntry ∧ q.2.id = p.2.id ∧
      (p.1, ⟨some p.2.value, some q.1, p.2.id⟩) ∈ nodeVals es := by
  induction es with
  | nil => cases hp
  | cons e es ih =>
      rcases List.mem_cons.mp hp with rfl | hp
      · have hcall : ¬ e.kind = .returnEntry := by
          rw [show e.kind = .callEntry from hk]
          exact nofun
        obtain ⟨q, hq, hqk, hqid, hmate⟩ := mateIn_spec (hret [] e es rfl hk)
        refine ⟨q, List.mem_cons_of_mem _ hq, hqk, hqid, ?_⟩
        rw [nodeVals, if_neg hcall, hmate]
        exact List.mem_cons_self
      · obtain ⟨q, hq, hqk, hqid, hin⟩ := ih hp fun pre e' suf heq =>
          hret (e :: pre) e' suf (by rw [heq, List.cons_append])
        exact ⟨q, List.mem_cons_of_mem _ hq, hqk, hqid, List.mem_cons_of_mem _ hin⟩

theorem WfEntries.return_behind {es : List (Entry I O)} {n : ℕ} (hwf : WfEntries es n)
    (pre : List (Entry I O)) (e : Entry I O) (suf : List (Entry I O)) (heq : es = pre ++ e :: suf)
    (hcall : e.kind = .callEntry) : ∃ r ∈ suf, r.kind = .returnEntry ∧ r.id = e.id := by
  have horder := hwf.order
  obtain ⟨r, hr, hrk, hrid⟩ := (hwf.mem_iff .returnEntry e.id).mpr
    ((hwf.mem_iff .callEntry e.id).mp ⟨e, by rw [heq]; simp, hcall, rfl⟩)
  rw [heq] at hr horder
  rcases List.mem_append.mp hr with hpre | hin
  · have := (List.pairwise_append.mp horder).2.2 r hpre e List.mem_cons_self
    exact absurd ⟨hrk, hcall, hrid⟩ this
  · rcases List.mem_cons.mp hin with rfl | hin
    · rw [hcall] at hrk
      cases hrk
    · exact ⟨r, hin, hrk, hrid⟩

theorem LinkingOk.nodes {es : List (Entry I O)} {n : ℕ} (hwf : WfEntries es n)
    {h : NodeHeap I O} (hvals : ∀ p ∈ nodeVals es, (h p.1).map DNode.val = some p.2) :
    NodesOk es h := by
  refine ⟨fun p hp hk => hvals _ (nodeVals_ret hp hk), ?_⟩
  intro p hp hk
  obtain ⟨q, hq, hqk, hqid, hin⟩ := nodeVals_call hp hk hwf.return_behind
  exact ⟨q, hq, hqk, hqid, hvals _ hin⟩

/-! ## §4. `lift` and `unlift`. -/

/-- **`lift` takes the two entries out, and `unlift` gives back the heap.** -/
theorem lift_spec {h : NodeHeap I O} {head a b : ℕ} {l₁ l₂ l₃ : List ℕ} {v : NodeVal I O}
    (hl : Linked h (head :: (l₁ ++ a :: (l₂ ++ b :: l₃))))
    (hnodup : (head :: (l₁ ++ a :: (l₂ ++ b :: l₃))).Nodup)
    (ha : (h a).map DNode.val = some v) (hmate : v.matching = some b) :
    ∃ h', lift h a = some h' ∧ unlift h' a = some h ∧ Linked h' (head :: (l₁ ++ (l₂ ++ l₃))) ∧
      SameVals h h' := by
  obtain ⟨h₁, hun, hre, hl₁, hval₁⟩ := Linked.unlink (head :: l₁) _ hl hnodup (by simp) (by simp)
  have hnodup₁ : ((head :: (l₁ ++ l₂)) ++ b :: l₃).Nodup := by
    refine hnodup.sublist ?_
    rw [List.cons_append, List.append_assoc]
    exact (List.Sublist.append_left (List.sublist_cons_self a _) _).cons_cons head
  obtain ⟨h₂, hun₂, hre₂, hl₂, hval₂⟩ := Linked.unlinkLast (head :: (l₁ ++ l₂)) l₃ (a := b)
    (h := h₁) (by simpa using hl₁) hnodup₁ (by simp)
  have hmate₁ : ∃ n, h₁ a = some n ∧ n.val.matching = some b := by
    have hva := (hval₁ a).trans ha
    obtain ⟨n, hn, rfl⟩ := Option.map_eq_some_iff.mp hva
    exact ⟨n, hn, hmate⟩
  have hmate₂ : ∃ n, h₂ a = some n ∧ n.val.matching = some b := by
    have hva := ((hval₂ a).trans (hval₁ a)).trans ha
    obtain ⟨n, hn, rfl⟩ := Option.map_eq_some_iff.mp hva
    exact ⟨n, hn, hmate⟩
  refine ⟨h₂, ?_, ?_, by simpa using hl₂, hval₁.trans hval₂⟩
  · obtain ⟨n, hn, hm⟩ := hmate₁
    simp [lift, hun, hn, hm, hun₂]
  · obtain ⟨n, hn, hm⟩ := hmate₂
    simp [unlift, hn, hm, hre₂, hre]

end ComputerScience.Porcupine
