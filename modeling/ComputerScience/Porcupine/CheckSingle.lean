/-
  ComputerScience.Porcupine.CheckSingle
  ─────────────────────────────────────
  **`checkSingle` IS A DEPTH-FIRST SEARCH** (`porcupine/checker.go`).

  The problem it solves: a configuration is a set of linearized operations with the state they
  lead to; the moves are the operations whose call comes before the first return of the
  entries that are left.  The turns of the loop on the linked list are the turns of the search
  of `Lib.Backtrack` on this problem, with the entries of the cache as its memo.

  Main results:
    • `checkBody_cases` — the turn of the loop, beside the turn of the search,
    • `checkSingle_total` — `checkSingle` returns without a panic, true if and only if the
      problem has a solution.
-/
import ComputerScience.Lib.Backtrack
import ComputerScience.Porcupine.LinkedEntries

namespace ComputerScience.Porcupine

open ComputerScience.Lib

variable {I O S : Type}

/-! ## §1. The problem. -/

/-- `Step` on the call and the return entry of operation `id`. -/
def acceptId (M : Model I O S) (es : List (Entry I O)) (s : S) (id : ℕ) : Option S := do
  let c ← es.find? fun e => decide (e.kind = .callEntry ∧ e.id = id)
  let r ← es.find? fun e => decide (e.kind = .returnEntry ∧ e.id = id)
  let (ok, s') ← M.stepAny s c.value r.value
  if ok then some s' else none

/-- A call entry of the list. -/
def isCall (p : ℕ × Entry I O) : Bool := decide (p.2.kind = .callEntry)

/-- The operations of the call entries at the front. -/
def frontCalls (l : List (ℕ × Entry I O)) : List ℕ := (l.takeWhile isCall).map fun p => p.2.id

/-- The search problem of a history. -/
def checkProblem (M : CheckModel I O S) (es : List (Entry I O)) : Problem (Bitset × S) ℕ where
  moves c := frontCalls (remaining es c.1)
  next c id := (acceptId M.toModel es c.2 id).bind fun s => (c.1.set id).map fun L => (L, s)
  done c := (remaining es c.1).isEmpty
  same c d := c.1.equals d.1 && M.equal c.2 d.2

/-! ## §2. The linked list and the stack. -/

/-- The list behind the head entry is what remains, and there are words for all operations. -/
structure ListRep (es : List (Entry I O)) (n : ℕ) (h : NodeHeap I O) (L : Bitset) : Prop where
  linked : Linked h (es.length :: (remaining es L).map Prod.fst)
  nodes : NodesOk es h
  words : ∀ pos < n, pos / 64 < L.length

/-- `calls` is the stack of the search, and lifted entries can be put back. -/
def StackRep (es : List (Entry I O)) (n : ℕ) :
    NodeHeap I O → List ((Bitset × S) × ℕ × List ℕ) → Bitset × S → List (ℕ × S) → Prop
  | h, [], cfg, calls => ListRep es n h cfg.1 ∧ calls = []
  | h, (cfg', id, ms) :: rest, cfg, calls =>
      ListRep es n h cfg.1 ∧ ∃ pre a e suf h' calls',
        remaining es cfg'.1 = pre ++ (a, e) :: suf ∧ (∀ p ∈ pre, isCall p = true) ∧
        e.kind = .callEntry ∧ e.id = id ∧ ms = frontCalls suf ∧
        cfg'.1.set id = some cfg.1 ∧ unlift h a = some h' ∧
        calls = calls' ++ [(a, cfg'.2)] ∧ StackRep es n h' rest cfg' calls'

/-- **The variables of `checkSingle` and the state of the search.** -/
structure Refines (es : List (Entry I O)) (n : ℕ) (c : Checker I O S)
    (a : Search (Bitset × S) ℕ) : Prop where
  head : c.headEntry = es.length
  cfg : a.cfg = (c.linearized, c.state)
  stack : StackRep es n c.heap a.below (c.linearized, c.state) c.calls
  /-- `entry` is at the first operation that is still to be tried. -/
  position : ∃ pre suf, remaining es c.linearized = pre ++ suf ∧ (∀ p ∈ pre, isCall p = true) ∧
    c.entry = suf.head?.map Prod.fst ∧ a.todo = frontCalls suf
  memo : ∀ x, x ∈ c.cache x.1.hash ↔ x ∈ a.memo
  buckets : ∀ k, ∀ x ∈ c.cache k, x.1.hash = k
  longest : c.longest.length = n

variable {M : CheckModel I O S} {es : List (Entry I O)} {n : ℕ}

theorem StackRep.listRep {h : NodeHeap I O} {below : List ((Bitset × S) × ℕ × List ℕ)}
    {cfg : Bitset × S} {calls : List (ℕ × S)} (hs : StackRep es n h below cfg calls) :
    ListRep es n h cfg.1 := by
  cases below with
  | nil => exact hs.1
  | cons f rest => exact hs.1

/-- The head entry and the nodes behind it are different. -/
theorem remaining_addr_nodup (es : List (Entry I O)) (L : Bitset) :
    (es.length :: (remaining es L).map Prod.fst).Nodup := by
  rw [List.nodup_cons]
  constructor
  · intro hin
    obtain ⟨p, hp, heq⟩ := List.mem_map.mp hin
    have := numbered_fst_lt (List.mem_filter.mp hp).1
    omega
  · exact (numbered_nodup es).sublist (List.filter_sublist.map _)

theorem mem_remaining {L : Bitset} {p : ℕ × Entry I O} :
    p ∈ remaining es L ↔ p ∈ numbered es ∧ L.has p.2.id = false := by
  rw [remaining, List.mem_filter, Bool.not_eq_true']

theorem mem_of_remaining {L : Bitset} {p : ℕ × Entry I O} (hp : p ∈ remaining es L) : p.2 ∈ es := by
  have hnum := (mem_remaining.mp hp).1
  rw [← numbered_map_snd es]
  exact List.mem_map.mpr ⟨p, hnum, rfl⟩

/-- The first entry behind the head. -/
theorem ListRep.next_head {h : NodeHeap I O} {L : Bitset} (hr : ListRep es n h L) :
    h.next es.length = some ((remaining es L).map Prod.fst).head? := by
  obtain ⟨⟨v, hv⟩, -⟩ := hr.linked
  simp [DHeap.next, hv]

/-- The node of an entry that remains. -/
theorem ListRep.node {h : NodeHeap I O} {L : Bitset} (hr : ListRep es n h L)
    {pre suf : List (ℕ × Entry I O)} {a : ℕ} {e : Entry I O}
    (hrem : remaining es L = pre ++ (a, e) :: suf) :
    ∃ node, h a = some node ∧ node.next = (suf.map Prod.fst).head? := by
  have hl := hr.linked
  rw [hrem, List.map_append, List.map_cons, ← List.cons_append] at hl
  obtain ⟨v, hv⟩ := Segment.node hl
  exact ⟨_, hv, by simp⟩

section Wf

variable (hwf : WfEntries es n)
include hwf

/-- An entry is known by its kind and its operation. -/
theorem WfEntries.numbered_inj {p q : ℕ × Entry I O} (hp : p ∈ numbered es) (hq : q ∈ numbered es)
    (hkind : p.2.kind = q.2.kind) (hid : p.2.id = q.2.id) : p = q := by
  have hnodup : ((numbered es).map fun p => (p.2.kind, p.2.id)).Nodup := by
    have := hwf.nodup
    rw [← numbered_map_snd es, List.map_map] at this
    exact this
  exact List.inj_on_of_nodup_map hnodup hp hq (by rw [hkind, hid])

theorem WfEntries.find_eq {k : EntryKind} {e : Entry I O} (he : e ∈ es) (hk : e.kind = k) :
    (es.find? fun x => decide (x.kind = k ∧ x.id = e.id)) = some e := by
  cases hf : es.find? fun x => decide (x.kind = k ∧ x.id = e.id) with
  | none =>
      have := List.find?_eq_none.mp hf e he
      simp [hk] at this
  | some x =>
      have hx := List.mem_of_find?_eq_some hf
      have hprop := List.find?_some hf
      simp only [decide_eq_true_eq] at hprop
      rw [List.inj_on_of_nodup_map hwf.nodup hx he (by rw [hprop.1, hprop.2, hk])]

/-- What the code asks `Step` is what `acceptId` does. -/
theorem acceptId_eq {s : S} {e r : Entry I O} (he : e ∈ es) (hcall : e.kind = .callEntry)
    (hr : r ∈ es) (hret : r.kind = .returnEntry) (hid : r.id = e.id) :
    ∃ ok s', M.toModel.stepAny s e.value r.value = some (ok, s') ∧
      acceptId M.toModel es s e.id = if ok then some s' else none := by
  obtain ⟨i, hi⟩ := hwf.input e he hcall
  obtain ⟨o, ho⟩ := hwf.output r hr hret
  have hfr := hwf.find_eq hr hret
  rw [hid] at hfr
  refine ⟨(M.step s i o).1, (M.step s i o).2, by rw [hi, ho]; rfl, ?_⟩
  simp only [acceptId, hwf.find_eq he hcall, hfr, Option.bind_eq_bind, Option.bind_some, hi, ho,
    Model.stepAny]

/-- Nothing remains when all operations are linearized. -/
theorem remaining_eq_nil_iff (L : Bitset) : remaining es L = [] ↔ ∀ i < n, L.has i = true := by
  constructor
  · intro hnil i hi
    by_contra hfalse
    rw [Bool.not_eq_true] at hfalse
    obtain ⟨e, he, -, rfl⟩ := (hwf.mem_iff .callEntry i).mpr hi
    rw [← numbered_map_snd es] at he
    obtain ⟨p, hp, rfl⟩ := List.mem_map.mp he
    have hin : p ∈ remaining es L := mem_remaining.mpr ⟨hp, hfalse⟩
    rw [hnil] at hin
    cases hin
  · intro hall
    rw [List.eq_nil_iff_forall_not_mem]
    intro p hp
    have hlt := (hwf.mem_iff p.2.kind p.2.id).mp ⟨p.2, mem_of_remaining hp, rfl, rfl⟩
    have := (mem_remaining.mp hp).2
    rw [hall _ hlt] at this
    cases this

/-- If something remains, something remains behind call entries. -/
theorem suffix_ne_nil {L : Bitset} {pre suf : List (ℕ × Entry I O)}
    (hrem : remaining es L = pre ++ suf) (hpre : ∀ p ∈ pre, isCall p = true)
    (hne : remaining es L ≠ []) : suf ≠ [] := by
  rintro rfl
  rw [List.append_nil] at hrem
  rw [hrem] at hne
  obtain ⟨⟨a, e⟩, l, rfl⟩ := List.exists_cons_of_ne_nil hne
  have hcall : e.kind = .callEntry := of_decide_eq_true (hpre _ List.mem_cons_self)
  obtain ⟨b, r, s₁, s₂, hsuf, hret, -⟩ := remaining_split hwf
    (show remaining es L = [] ++ (a, e) :: l from hrem) hcall
  have hr := hpre (b, r) (by rw [hsuf]; simp)
  rw [isCall, hret] at hr
  cases hr

end Wf

/-- The cache test is the test of the memo. -/
theorem cacheContains_eq {c : Checker I O S} {a : Search (Bitset × S) ℕ} (h : Refines es n c a)
    (x : Bitset × S) : cacheContains M c.cache x = a.memo.any ((checkProblem M es).same x) := by
  rw [Bool.eq_iff_iff, cacheContains, List.any_eq_true, List.any_eq_true]
  constructor
  · rintro ⟨d, hd, hsame⟩
    refine ⟨d, (h.memo d).mp ?_, hsame⟩
    rw [h.buckets _ d hd]
    exact hd
  · rintro ⟨d, hd, hsame⟩
    have hL : x.1 = d.1 := Bitset.equals_iff.mp (Bool.and_eq_true _ _ ▸ hsame).1
    exact ⟨d, by rw [hL]; exact (h.memo d).mpr hd, hsame⟩

/-- The operations on the stack. -/
theorem StackRep.callIds {hcur h : NodeHeap I O} {below : List ((Bitset × S) × ℕ × List ℕ)}
    {cfg : Bitset × S} {calls : List (ℕ × S)} (hs : StackRep es n h below cfg calls)
    (hnodes : NodesOk es hcur) :
    callIds hcur calls = some (below.map fun f => f.2.1).reverse := by
  induction below generalizing h cfg calls with
  | nil =>
      obtain ⟨-, rfl⟩ := hs
      rfl
  | cons f rest ih =>
      obtain ⟨cfg', id, ms⟩ := f
      obtain ⟨-, pre, a, e, suf, h', calls', hrem, -, hcall, rfl, -, -, -, rfl, hrest⟩ := hs
      have hnum : (a, e) ∈ numbered es := (mem_remaining.mp (by rw [hrem]; simp)).1
      obtain ⟨q, -, -, -, hval⟩ := hnodes.call (a, e) hnum hcall
      obtain ⟨node, hnode, hv⟩ := Option.map_eq_some_iff.mp hval
      have hih := ih hrest
      rw [List.map_cons, List.reverse_cons]
      unfold Porcupine.callIds at hih ⊢
      rw [List.mapM_append, hih]
      simp [hnode, hv]

/-- The operations on the stack are operations of the history. -/
theorem StackRep.ids_lt (hwf : WfEntries es n) {h : NodeHeap I O}
    {below : List ((Bitset × S) × ℕ × List ℕ)} {cfg : Bitset × S} {calls : List (ℕ × S)}
    (hs : StackRep es n h below cfg calls) : ∀ f ∈ below, f.2.1 < n := by
  induction below generalizing h cfg calls with
  | nil => nofun
  | cons f rest ih =>
      obtain ⟨cfg', id, ms⟩ := f
      obtain ⟨-, pre, a, e, suf, h', calls', hrem, -, hcall, rfl, -, -, -, -, hrest⟩ := hs
      intro g hg
      rcases List.mem_cons.mp hg with rfl | hg
      · have hin : (a, e) ∈ remaining es cfg'.1 := by
          rw [hrem]
          simp
        exact (hwf.mem_iff .callEntry e.id).mp ⟨e, mem_of_remaining hin, hcall, rfl⟩
      · exact ih hrest g hg

/-- What the loop over `calls` leaves in `longest`. -/
theorem updateLongest_spec (addr : ℕ) (seq : List ℕ) {ids : List ℕ} {longest : Longest}
    (hids : ∀ id ∈ ids, id < longest.length) :
    ∃ l', updateLongest addr seq ids longest = some l' ∧ l'.length = longest.length ∧
      ∀ i, (l'[i]? = longest[i]? ∧
          (i ∈ ids → ∃ l, longest[i]? = some (some l) ∧ seq.length ≤ l.2.length)) ∨
        (i ∈ ids ∧ l'[i]? = some (some (addr, seq)) ∧
          ∀ l, longest[i]? = some (some l) → l.2.length < seq.length) := by
  induction ids generalizing longest with
  | nil => exact ⟨longest, rfl, rfl, fun i => Or.inl ⟨rfl, nofun⟩⟩
  | cons id ids ih =>
      have hid : id < longest.length := hids id List.mem_cons_self
      have hget : longest[id]? = some longest[id] := List.getElem?_eq_getElem hid
      cases hlong : longest[id].all fun l => decide (seq.length > l.2.length) with
      | true =>
          have hids' : ∀ j ∈ ids, j < (longest.set id (some (addr, seq))).length := by
            intro j hj
            rw [List.length_set]
            exact hids j (List.mem_cons_of_mem id hj)
          obtain ⟨l', hl', hlen, hspec⟩ := ih hids'
          refine ⟨l', by simp [updateLongest, hget, hlong, hl'], by simpa using hlen, ?_⟩
          intro i
          by_cases hi : i = id
          · subst hi
            refine Or.inr ⟨List.mem_cons_self, ?_, ?_⟩
            · rcases hspec i with ⟨heq, -⟩ | ⟨-, heq, -⟩
              · rw [heq, List.getElem?_set_self hid]
              · exact heq
            · intro l hl
              rw [hget, Option.some.injEq] at hl
              rw [hl] at hlong
              exact of_decide_eq_true hlong
          · have hsame : (longest.set id (some (addr, seq)))[i]? = longest[i]? :=
              List.getElem?_set_ne (Ne.symm hi)
            have := hspec i
            rw [hsame] at this
            simpa [hi] using this
      | false =>
          have hids' : ∀ j ∈ ids, j < longest.length := fun j hj =>
            hids j (List.mem_cons_of_mem id hj)
          obtain ⟨l', hl', hlen, hspec⟩ := ih hids'
          refine ⟨l', by simp [updateLongest, hget, hlong, hl'], hlen, ?_⟩
          intro i
          rcases hspec i with ⟨heq, hin⟩ | ⟨hin, heq, hlt⟩
          · refine Or.inl ⟨heq, ?_⟩
            intro hi
            rcases List.mem_cons.mp hi with rfl | hi
            · cases hold : longest[i] with
              | none =>
                  rw [hold] at hlong
                  cases hlong
              | some l =>
                  rw [hold] at hlong
                  refine ⟨l, by rw [hget, hold], ?_⟩
                  have := of_decide_eq_false hlong
                  omega
            · exact hin hi
          · exact Or.inr ⟨List.mem_cons_of_mem id hin, heq, hlt⟩

/-! ## §3. The turns of the loop. -/

section Turns

variable (hwf : WfEntries es n) {cp kill : Bool} {c : Checker I O S} {a : Search (Bitset × S) ℕ}
  (h : Refines es n c a)
include h

theorem Refines.listRep : ListRep es n c.heap c.linearized := h.stack.listRep

theorem Refines.next_head :
    c.heap.next c.headEntry = some ((remaining es c.linearized).map Prod.fst).head? := by
  rw [h.head]
  exact h.listRep.next_head

theorem Refines.done_iff :
    (checkProblem M es).done a.cfg = true ↔ remaining es c.linearized = [] := by
  rw [h.cfg]
  exact List.isEmpty_iff

/-- Nothing remains: all of `longest` becomes the linearization that was found. -/
theorem checkBody_done (hdone : remaining es c.linearized = []) :
    checkBody M cp kill c = some (.inr (true, List.replicate n (some (c.seqs, a.path)))) := by
  have hids := h.stack.callIds h.listRep.nodes
  simp only [checkBody, h.next_head, hdone, List.map_nil, List.head?_nil, Option.bind_eq_bind,
    Option.bind_some, if_true, hids, h.longest, Search.path]

/-- At a return entry with no calls made, the search has failed. -/
theorem checkBody_fail {pre suf : List (ℕ × Entry I O)} {b : ℕ} {r : Entry I O}
    (hrem : remaining es c.linearized = pre ++ (b, r) :: suf) (hret : r.kind = .returnEntry)
    (hentry : c.entry = some b) (hbelow : a.below = []) :
    checkBody M cp false c = some (.inr (false, c.longest)) := by
  have hcalls : c.calls = [] := by
    have hstack := h.stack
    rw [hbelow] at hstack
    exact hstack.2
  have hnum : (b, r) ∈ numbered es := (mem_remaining.mp (by rw [hrem]; simp)).1
  obtain ⟨node, hnode, hval⟩ := Option.map_eq_some_iff.mp (h.listRep.nodes.ret (b, r) hnum hret)
  have hne : remaining es c.linearized ≠ [] := by
    rw [hrem]
    simp
  simp [checkBody, h.next_head, hne, hentry, hnode, hval, hcalls]

/-- The call entry at hand is passed over. -/
theorem Refines.skip {pre suf : List (ℕ × Entry I O)} {x : ℕ} {e : Entry I O}
    (hrem : remaining es c.linearized = pre ++ (x, e) :: suf) (hpre : ∀ p ∈ pre, isCall p = true)
    (hcall : e.kind = .callEntry) :
    Refines es n { c with entry := (suf.map Prod.fst).head? }
      { a with todo := frontCalls suf } := by
  refine ⟨h.head, h.cfg, h.stack, ⟨pre ++ [(x, e)], suf, ?_, ?_, ?_, rfl⟩, h.memo, h.buckets,
    h.longest⟩
  · rw [hrem, List.append_assoc, List.singleton_append]
  · intro p hp
    rcases List.mem_append.mp hp with hp | hp
    · exact hpre p hp
    · rw [List.mem_singleton.mp hp]
      exact decide_eq_true hcall
  · exact List.head?_map

include hwf

/-- The call entry at hand is linearized next. -/
theorem Refines.push {pre suf : List (ℕ × Entry I O)} {x : ℕ} {e : Entry I O}
    (hrem : remaining es c.linearized = pre ++ (x, e) :: suf) (hpre : ∀ p ∈ pre, isCall p = true)
    (hcall : e.kind = .callEntry) {L : Bitset} (hset : c.linearized.set e.id = some L) (s : S) :
    ∃ heap, lift c.heap x = some heap ∧
      heap.next c.headEntry = some ((remaining es L).map Prod.fst).head? ∧
      Refines es n
        { c with
          cache := Function.update c.cache L.hash (c.cache L.hash ++ [(L, s)])
          calls := c.calls ++ [(x, c.state)]
          state := s
          linearized := L
          heap := heap
          entry := ((remaining es L).map Prod.fst).head? }
        ⟨(L, s), (checkProblem M es).moves (L, s), (a.cfg, e.id, frontCalls suf) :: a.below,
          (L, s) :: a.memo⟩ := by
  have hin : (x, e) ∈ remaining es c.linearized := by
    rw [hrem]
    simp
  have hid : e.id < n := (hwf.mem_iff .callEntry e.id).mp ⟨e, mem_of_remaining hin, hcall, rfl⟩
  obtain ⟨L', hset', hlen, hhas⟩ := Bitset.set_spec (h.listRep.words e.id hid)
  obtain rfl : L' = L := Option.some.inj (hset'.symm.trans hset)
  obtain ⟨b, r, s₁, s₂, hsuf, hret, hrid, hrest⟩ := remaining_split hwf hrem hcall
  have hrem' := hrest L' hhas
  -- `match` of the call entry is the return entry behind it
  obtain ⟨q, hq, hqret, hqid, hval⟩ :=
    h.listRep.nodes.call (x, e) (mem_remaining.mp hin).1 hcall
  have hbin : (b, r) ∈ numbered es := (mem_remaining.mp
    (show (b, r) ∈ remaining es c.linearized by rw [hrem, hsuf]; simp)).1
  obtain rfl : q = (b, r) := hwf.numbered_inj hq hbin (by rw [hqret, hret]) (by rw [hqid, hrid])
  have haddrs : (remaining es c.linearized).map Prod.fst =
      pre.map Prod.fst ++ x :: (s₁.map Prod.fst ++ b :: s₂.map Prod.fst) := by
    rw [hrem, hsuf]
    simp
  have hlinked := h.listRep.linked
  have hnodup := remaining_addr_nodup es c.linearized
  rw [haddrs] at hlinked hnodup
  obtain ⟨heap, hlift, hunlift, hlinked', hvals⟩ := lift_spec hlinked hnodup hval rfl
  have hrep : ListRep es n heap L' := by
    refine ⟨?_, h.listRep.nodes.same hvals, fun pos hpos => ?_⟩
    · rw [hrem']
      simpa using hlinked'
    · rw [hlen]
      exact h.listRep.words pos hpos
  refine ⟨heap, hlift, ?_, ?_⟩
  · rw [h.head]
    exact hrep.next_head
  · refine ⟨h.head, rfl, ?_, ⟨[], remaining es L', rfl, nofun, List.head?_map, rfl⟩, ?_, ?_,
      h.longest⟩
    · refine ⟨hrep, pre, x, e, suf, c.heap, c.calls, ?_, hpre, hcall, rfl, rfl, ?_, hunlift, ?_, ?_⟩
      · rw [h.cfg]
        exact hrem
      · rw [h.cfg]
        exact hset
      · rw [h.cfg]
      · rw [h.cfg]
        exact h.stack
    · intro y
      show y ∈ Function.update c.cache L'.hash (c.cache L'.hash ++ [(L', s)]) y.1.hash ↔ _
      by_cases hy : y.1.hash = L'.hash
      · rw [hy, Function.update_self, List.mem_append, List.mem_singleton, List.mem_cons, or_comm,
          ← h.memo y, hy]
      · have hne : y ≠ (L', s) := fun heq => hy (by rw [heq])
        rw [Function.update_of_ne hy, List.mem_cons, h.memo y]
        simp [hne]
    · intro k y hy
      by_cases hk : k = L'.hash
      · subst hk
        change y ∈ Function.update c.cache L'.hash (c.cache L'.hash ++ [(L', s)]) L'.hash at hy
        rw [Function.update_self, List.mem_append, List.mem_singleton] at hy
        rcases hy with hy | rfl
        · exact h.buckets _ y hy
        · rfl
      · change y ∈ Function.update c.cache L'.hash (c.cache L'.hash ++ [(L', s)]) k at hy
        rw [Function.update_of_ne hk] at hy
        exact h.buckets k y hy

/-- **At a call entry** the model is asked; a new configuration is entered. -/
theorem checkBody_call {pre suf : List (ℕ × Entry I O)} {x : ℕ} {e : Entry I O}
    (hrem : remaining es c.linearized = pre ++ (x, e) :: suf) (hpre : ∀ p ∈ pre, isCall p = true)
    (hcall : e.kind = .callEntry) (hentry : c.entry = some x)
    (htodo : a.todo = e.id :: frontCalls suf) :
    ∃ c' a', checkBody M cp false c = some (.inl c') ∧ a.turn (checkProblem M es) = .inl a' ∧
      Refines es n c' a' ∧ c'.longest = c.longest := by
  have hin : (x, e) ∈ remaining es c.linearized := by
    rw [hrem]
    simp
  have hne : remaining es c.linearized ≠ [] := List.ne_nil_of_mem hin
  have hnotdone : (checkProblem M es).done a.cfg = false := by
    rw [← Bool.not_eq_true, h.done_iff]
    exact hne
  have hid : e.id < n := (hwf.mem_iff .callEntry e.id).mp ⟨e, mem_of_remaining hin, hcall, rfl⟩
  obtain ⟨L, hset, -, -⟩ := Bitset.set_spec (h.listRep.words e.id hid)
  obtain ⟨q, hq, hqret, hqid, hvalx⟩ := h.listRep.nodes.call (x, e) (mem_remaining.mp hin).1 hcall
  have hqes : q.2 ∈ es := by
    rw [← numbered_map_snd es]
    exact List.mem_map.mpr ⟨q, hq, rfl⟩
  obtain ⟨node, hnode, hnext⟩ := h.listRep.node hrem
  have hval : node.val = ⟨some e.value, some q.1, e.id⟩ := by
    rw [hnode, Option.map_some, Option.some.injEq] at hvalx
    exact hvalx
  obtain ⟨mate, hmate, hmval⟩ := Option.map_eq_some_iff.mp (h.listRep.nodes.ret q hq hqret)
  obtain ⟨ok, s, hstep, haccept⟩ :=
    acceptId_eq (M := M) (s := c.state) hwf (mem_of_remaining hin) hcall hqes hqret hqid
  have hskip := h.skip hrem hpre hcall
  cases ok with
  | false =>
      refine ⟨_, _, ?_, ?_, hskip, rfl⟩
      · simp [checkBody, h.next_head, hne, hentry, hnode, hval, hmate, hmval, hstep, hnext]
      · refine Search.turn_skip hnotdone htodo ?_
        intro y hy
        simp [checkProblem, h.cfg, haccept] at hy
  | true =>
      have hmemo := cacheContains_eq (M := M) h (L, s)
      have hmove : (checkProblem M es).next a.cfg e.id = some (L, s) := by
        simp [checkProblem, h.cfg, haccept, hset]
      cases hcache : cacheContains M c.cache (L, s) with
      | true =>
          refine ⟨_, _, ?_, ?_, hskip, rfl⟩
          · simp [checkBody, h.next_head, hne, hentry, hnode, hval, hmate, hmval, hstep, hnext,
              hset, hcache]
          · refine Search.turn_skip hnotdone htodo ?_
            intro y hy
            obtain rfl : (L, s) = y := Option.some.inj (hmove.symm.trans hy)
            rw [← hmemo, hcache]
      | false =>
          obtain ⟨heap, hlift, hhead, href⟩ := h.push (M := M) hwf hrem hpre hcall hset s
          refine ⟨_, _, ?_, ?_, href, rfl⟩
          · simp [checkBody, h.next_head, hne, hentry, hnode, hval, hmate, hmval, hstep,
              hset, hcache, hlift, hhead]
          · refine Search.turn_enter hnotdone htodo hmove ?_
            rw [← hmemo, hcache]

/-- **At a return entry** the last call is undone. -/
theorem checkBody_return {pre suf : List (ℕ × Entry I O)} {b : ℕ} {r : Entry I O}
    (hrem : remaining es c.linearized = pre ++ (b, r) :: suf) (hret : r.kind = .returnEntry)
    (hentry : c.entry = some b) (htodo : a.todo = []) (hbelow : a.below ≠ []) :
    ∃ c' a', checkBody M cp false c = some (.inl c') ∧ a.turn (checkProblem M es) = .inl a' ∧
      Refines es n c' a' ∧ (if cp then updateLongest c.seqs a.path a.path c.longest
        else some c.longest) = some c'.longest := by
  have hne : remaining es c.linearized ≠ [] := by
    rw [hrem]
    simp
  have hnotdone : (checkProblem M es).done a.cfg = false := by
    rw [← Bool.not_eq_true, h.done_iff]
    exact hne
  have hnum : (b, r) ∈ numbered es := (mem_remaining.mp (by rw [hrem]; simp)).1
  obtain ⟨node, hnode, hval⟩ := Option.map_eq_some_iff.mp (h.listRep.nodes.ret (b, r) hnum hret)
  have hids : callIds c.heap c.calls = some a.path := h.stack.callIds h.listRep.nodes
  have hpath : ∀ id ∈ a.path, id < c.longest.length := by
    intro id hid
    rw [Search.path, List.mem_reverse, List.mem_map] at hid
    obtain ⟨f, hf, rfl⟩ := hid
    rw [h.longest]
    exact h.stack.ids_lt hwf f hf
  obtain ⟨longest, hlongest, hlen⟩ : ∃ l, (if cp then updateLongest c.seqs a.path a.path c.longest
      else some c.longest) = some l ∧ l.length = n := by
    cases cp with
    | true =>
        obtain ⟨l, hl, hlen, -⟩ := updateLongest_spec c.seqs a.path hpath
        exact ⟨l, hl, hlen.trans h.longest⟩
    | false => exact ⟨c.longest, rfl, h.longest⟩
  obtain ⟨⟨cfg', id, ms⟩, rest, hcons⟩ := List.exists_cons_of_ne_nil hbelow
  have hstack := h.stack
  rw [hcons] at hstack
  obtain ⟨-, pre', x, e, suf', heap, calls', hrem', hpre', hcall, rfl, rfl, hset, hunlift, hcalls,
    hrest⟩ := hstack
  have hin : (x, e) ∈ remaining es cfg'.1 := by
    rw [hrem']
    simp
  have hclear := Bitset.clear_set hset (mem_remaining.mp hin).2
  obtain ⟨nodex, hnodex, hnextx⟩ := hrest.listRep.node hrem'
  obtain ⟨q, -, -, -, hvalx⟩ := h.listRep.nodes.call (x, e) (mem_remaining.mp hin).1 hcall
  obtain ⟨nodex', hnodex', hvalx⟩ := Option.map_eq_some_iff.mp hvalx
  refine ⟨{ c with
      longest := longest
      seqs := c.seqs + 1
      state := cfg'.2
      linearized := cfg'.1
      calls := calls'
      heap := heap
      entry := (suf'.map Prod.fst).head? }, _, ?_, Search.turn_back hnotdone htodo hcons, ?_,
    hlongest⟩
  · have hlast : c.calls.getLast? = some (x, cfg'.2) := by
      rw [hcalls, List.getLast?_concat]
    have hdrop : c.calls.dropLast = calls' := by
      rw [hcalls, List.dropLast_concat]
    have hnext : heap.next x = some (suf'.map Prod.fst).head? := by
      rw [DHeap.next, hnodex, Option.map_some, hnextx]
    cases cp with
    | true =>
        have hupdate : updateLongest c.seqs a.path a.path c.longest = some longest := hlongest
        simp [checkBody, h.next_head, hne, hentry, hnode, hval, hlast, hdrop, hids, hupdate,
          hnodex', hvalx, hclear, hunlift, hnext]
    | false =>
        obtain rfl : c.longest = longest := Option.some.inj hlongest
        simp [checkBody, h.next_head, hne, hentry, hnode, hval, hlast, hdrop, hnodex', hvalx,
          hclear, hunlift, hnext]
  · refine ⟨h.head, rfl, hrest, ⟨pre' ++ [(x, e)], suf', ?_, ?_, List.head?_map, rfl⟩, h.memo,
      h.buckets, hlen⟩
    · rw [hrem', List.append_assoc, List.singleton_append]
    · intro p hp
      rcases List.mem_append.mp hp with hp | hp
      · exact hpre' p hp
      · rw [List.mem_singleton.mp hp]
        exact decide_eq_true hcall

/-- **What a turn of the loop can do**, beside the turn of the search. -/
theorem checkBody_cases (cp : Bool) :
    ((checkProblem M es).done a.cfg = true ∧ a.turn (checkProblem M es) = .inr (some a.path) ∧
      checkBody M cp false c =
        some (.inr (true, List.replicate n (some (c.seqs, a.path))))) ∨
    (a.turn (checkProblem M es) = .inr none ∧
      checkBody M cp false c = some (.inr (false, c.longest))) ∨
    ∃ c' a', checkBody M cp false c = some (.inl c') ∧ a.turn (checkProblem M es) = .inl a' ∧
      Refines es n c' a' ∧
      ((a.todo ≠ [] ∧ c'.longest = c.longest) ∨
        (if cp then updateLongest c.seqs a.path a.path c.longest else some c.longest) =
          some c'.longest) := by
  by_cases hdone : remaining es c.linearized = []
  · have hd : (checkProblem M es).done a.cfg = true := h.done_iff.mpr hdone
    exact Or.inl ⟨hd, if_pos hd, checkBody_done h hdone⟩
  right
  have hnotdone : (checkProblem M es).done a.cfg = false := by
    rw [← Bool.not_eq_true, h.done_iff]
    exact hdone
  obtain ⟨pre, suf, hrem, hpre, hentry, htodo⟩ := h.position
  obtain ⟨⟨x, e⟩, suf, rfl⟩ := List.exists_cons_of_ne_nil (suffix_ne_nil hwf hrem hpre hdone)
  cases hkind : e.kind with
  | callEntry =>
      have htodo' : a.todo = e.id :: frontCalls suf := by
        rw [htodo, frontCalls, List.takeWhile_cons_of_pos (show isCall (x, e) = true from
          decide_eq_true hkind), List.map_cons, frontCalls]
      obtain ⟨c', a', hbody, hturn, href, hlong⟩ :=
        checkBody_call hwf h hrem hpre hkind hentry htodo'
      exact Or.inr ⟨c', a', hbody, hturn, href, Or.inl ⟨by rw [htodo']; simp, hlong⟩⟩
  | returnEntry =>
      have hnotcall : ¬ isCall (x, e) = true := by
        simp [isCall, hkind]
      have htodo' : a.todo = [] := by
        rw [htodo, frontCalls, List.takeWhile_cons_of_neg hnotcall, List.map_nil]
      by_cases hbelow : a.below = []
      · refine Or.inl ⟨?_, checkBody_fail h hrem hkind hentry hbelow⟩
        simp [Search.turn, hnotdone, htodo', hbelow]
      · obtain ⟨c', a', hbody, hturn, href, hlong⟩ :=
          checkBody_return hwf h hrem hkind hentry htodo' hbelow
        exact Or.inr ⟨c', a', hbody, hturn, href, Or.inr hlong⟩

end Turns

/-! ## §4. The start. -/

theorem lengthFrom_eq {h : NodeHeap I O} {p : Option ℕ} {l : List ℕ} (hseg : Segment h p l none)
    (k : ℕ) : lengthFrom h (l.length + 1) l.head? k = some (k + l.length) := by
  induction l generalizing p k with
  | nil => rfl
  | cons a l ih =>
      obtain ⟨⟨v, hv⟩, hl⟩ := hseg
      have hnext : h.next a = some l.head? := by
        simp [DHeap.next, hv]
      have hlen : (a :: l).length = l.length + 1 := rfl
      simp only [lengthFrom, List.head?_cons, hnext, hlen, Option.bind_eq_bind, Option.bind_some]
      rw [ih hl (k + 1), Nat.add_right_comm, Nat.add_assoc]

theorem remaining_newBitset (es : List (Entry I O)) (n : ℕ) :
    remaining es (newBitset n) = numbered es := by
  unfold remaining
  refine List.filter_eq_self.mpr fun p _ => ?_
  rw [Bitset.has_newBitset]
  rfl

/-- The configuration the search starts in. -/
def checkRoot (M : CheckModel I O S) (n : ℕ) : Bitset × S := (newBitset n, M.init)

/-- **The search begins.** -/
theorem checkStart_spec (hwf : WfEntries es n) :
    ∃ c, checkStart M es = some c ∧
      Refines es n c (Search.start (checkProblem M es) (checkRoot M n)) ∧
      c.longest = List.replicate n none := by
  obtain ⟨st, hst, hok⟩ := makeLinkedEntries_spec es
  have hlen : ((numbered es).map Prod.fst).length = es.length := by
    rw [← numbered_map_snd es, List.length_map, List.length_map, numbered_map_snd]
  have hcount : lengthFrom st.heap (st.fresh + 1) st.root 0 = some es.length := by
    have := lengthFrom_eq hok.linked 0
    rw [hlen] at this
    rw [hok.fresh, hok.root, this, Nat.zero_add]
  have hhalf : es.length / 2 = n := by
    rw [hwf.length_eq]
    omega
  obtain ⟨heap, hins, hlinked, -, -, hvals⟩ := hok.insert ⟨none, none, -1⟩
  refine ⟨⟨heap, st.fresh, st.root, M.init, newBitset n, [], fun _ => [], List.replicate n none, 0⟩,
    ?_, ?_, rfl⟩
  · simp [checkStart, hst, hcount, hins, hhalf]
  · have hrep : ListRep es n heap (newBitset n) := by
      refine ⟨?_, LinkingOk.nodes hwf hvals, fun pos hpos => Bitset.length_newBitset hpos⟩
      rw [remaining_newBitset]
      exact hlinked
    refine ⟨hok.fresh, rfl, ⟨hrep, rfl⟩, ⟨[], numbered es, remaining_newBitset es n, nofun, ?_, ?_⟩,
      fun x => Iff.rfl, nofun, List.length_replicate⟩
    · rw [← List.head?_map]
      exact hok.root
    · show frontCalls (remaining es (newBitset n)) = _
      rw [remaining_newBitset]

/-! ## §5. The search ends. -/

/-- A call entry at the front. -/
theorem mem_frontCalls {l : List (ℕ × Entry I O)} {id : ℕ} (hid : id ∈ frontCalls l) :
    ∃ pre x e suf, l = pre ++ (x, e) :: suf ∧ (∀ p ∈ pre, isCall p = true) ∧
      e.kind = .callEntry ∧ e.id = id := by
  obtain ⟨⟨x, e⟩, hin, rfl⟩ := List.mem_map.mp hid
  have hall : ∀ p ∈ l.takeWhile isCall, isCall p = true := fun p hp =>
    List.all_eq_true.mp List.all_takeWhile p hp
  obtain ⟨pre, suf, heq⟩ := List.append_of_mem hin
  refine ⟨pre, x, e, suf ++ l.dropWhile isCall, ?_, ?_, of_decide_eq_true (hall _ hin), rfl⟩
  · conv_lhs => rw [← List.takeWhile_append_dropWhile (p := isCall) (l := l), heq]
    rw [List.append_assoc, List.cons_append]
  · intro p hp
    exact hall p (by rw [heq]; exact List.mem_append_left _ hp)

/-- Every move takes two entries out of the list. -/
theorem checkProblem_ranked (hwf : WfEntries es n) :
    Ranked (checkProblem M es) (fun c => (remaining es c.1).length) (es.length + 2) := by
  constructor
  · intro c m c' hm hnext
    obtain ⟨pre, x, e, suf, hrem, -, hcall, rfl⟩ := mem_frontCalls hm
    obtain ⟨s, -, hs⟩ := Option.bind_eq_some_iff.mp hnext
    obtain ⟨L, hset, rfl⟩ := Option.map_eq_some_iff.mp hs
    obtain ⟨b, r, s₁, s₂, rfl, -, -, hrest⟩ := remaining_split hwf hrem hcall
    show (remaining es L).length < (remaining es c.1).length
    rw [hrest L (Bitset.set_eq_some hset).2, hrem]
    simp only [List.length_append, List.length_cons]
    omega
  · intro c
    have hle : ((checkProblem M es).moves c).length ≤ (numbered es).length :=
      calc ((checkProblem M es).moves c).length
          = ((remaining es c.1).takeWhile isCall).length := List.length_map _
        _ ≤ (remaining es c.1).length := (List.takeWhile_prefix isCall).length_le
        _ ≤ (numbered es).length := List.length_filter_le _ _
    have hnum : (numbered es).length = es.length := by
      conv_rhs => rw [← numbered_map_snd es]
      rw [List.length_map]
    omega

/-! ## §6. The memo. -/

/-- `Equal` identifies only states that accept the same operations. -/
def EqualSound (M : CheckModel I O S) : Prop :=
  ∀ s t, M.equal s t = true → ∀ ops, Legal M.accept s ops → Legal M.accept t ops

theorem equalSound_shallowEqual [DecidableEq S] (h : M.equal = shallowEqual) : EqualSound M := by
  intro s t hst ops hlegal
  rw [h] at hst
  rw [← of_decide_eq_true hst]
  exact hlegal

/-- What can be linearized from `c` can be linearized from `d`. -/
def Accepts (M : CheckModel I O S) (es : List (Entry I O)) (c d : Bitset × S) : Prop :=
  c.1 = d.1 ∧ ∀ ids, Legal (acceptId M.toModel es) c.2 ids → Legal (acceptId M.toModel es) d.2 ids

theorem acceptId_eq_accept (M : Model I O S) (es : List (Entry I O)) (id : ℕ) :
    (∀ s, acceptId M es s id = none) ∨ ∃ op, ∀ s, acceptId M es s id = M.accept s op := by
  unfold acceptId
  cases es.find? fun e => decide (e.kind = .callEntry ∧ e.id = id) with
  | none => exact Or.inl fun _ => rfl
  | some c =>
      cases es.find? fun e => decide (e.kind = .returnEntry ∧ e.id = id) with
      | none => exact Or.inl fun _ => rfl
      | some r =>
          cases hc : c.value with
          | output o => exact Or.inl fun _ => by simp [hc, Model.stepAny]
          | input i =>
              cases hr : r.value with
              | input i => exact Or.inl fun _ => by simp [hr, Model.stepAny]
              | output o =>
                  exact Or.inr ⟨⟨0, i, 0, o, 0⟩, fun _ => by
                    simp [hc, hr, Model.stepAny, Model.accept]⟩

/-- A run on operation numbers is a run on operations. -/
theorem legal_acceptId (M : Model I O S) (es : List (Entry I O)) (ids : List ℕ) :
    (∀ s, ¬ Legal (acceptId M es) s ids) ∨
      ∃ ops, ∀ s, Legal (acceptId M es) s ids ↔ Legal M.accept s ops := by
  induction ids with
  | nil => exact Or.inr ⟨[], fun _ => Iff.rfl⟩
  | cons id ids ih =>
      rcases acceptId_eq_accept M es id with hnone | ⟨op, hop⟩
      · left
        rintro s ⟨s', hs', -⟩
        rw [hnone] at hs'
        cases hs'
      · rcases ih with hnot | ⟨ops, hops⟩
        · left
          rintro s ⟨s', -, hl⟩
          exact hnot s' hl
        · right
          refine ⟨op :: ops, fun s => ?_⟩
          simp only [Legal, hop, hops]

theorem checkProblem_simulation (es : List (Entry I O)) (hequal : EqualSound M) :
    (checkProblem M es).Simulation (Accepts M es) := by
  constructor
  · exact fun c => ⟨rfl, fun _ h => h⟩
  · rintro c d e ⟨h₁, h₂⟩ ⟨h₃, h₄⟩
    exact ⟨h₁.trans h₃, fun ids h => h₄ ids (h₂ ids h)⟩
  · intro c d hsame
    obtain ⟨hL, hs⟩ := Bool.and_eq_true_iff.mp hsame
    refine ⟨Bitset.equals_iff.mp hL, ?_⟩
    intro ids hids
    rcases legal_acceptId M.toModel es ids with hnot | ⟨ops, hops⟩
    · exact absurd hids (hnot _)
    · exact (hops _).mpr (hequal _ _ hs ops ((hops _).mp hids))
  · rintro ⟨L, s⟩ ⟨L', t⟩ ⟨rfl, -⟩ hdone
    exact hdone
  · rintro ⟨L, s⟩ ⟨L', t⟩ m c' ⟨rfl, hst⟩ hm hnext
    obtain ⟨s', hs', hL⟩ := Option.bind_eq_some_iff.mp hnext
    obtain ⟨L', hset, rfl⟩ := Option.map_eq_some_iff.mp hL
    refine ⟨hm, ?_⟩
    obtain ⟨t', ht', -⟩ := hst [m] ⟨s', hs', trivial⟩
    refine ⟨(L', t'), ?_, rfl, ?_⟩
    · show (acceptId M.toModel es t m).bind _ = _
      rw [ht', Option.bind_some, hset, Option.map_some]
    · intro ids hids
      obtain ⟨t'', ht'', hl⟩ := hst (m :: ids) ⟨s', hs', hids⟩
      obtain rfl : t' = t'' := Option.some.inj (ht'.symm.trans ht'')
      exact hl

/-! ## §7. What `longest` holds. -/

/-- The operations that a path has linearized. -/
theorem path_has (hwf : WfEntries es n) {c d : Bitset × S} {ids : List ℕ}
    (h : (checkProblem M es).Path c ids d) :
    ids.Nodup ∧ (∀ i ∈ ids, c.1.has i = false ∧ i < n) ∧
      ∀ i, d.1.has i = (c.1.has i || decide (i ∈ ids)) := by
  induction ids generalizing c with
  | nil =>
      obtain rfl : c = d := h
      exact ⟨List.nodup_nil, nofun, fun i => by simp⟩
  | cons m ids ih =>
      obtain ⟨c', hm, hnext, hpath⟩ := h
      obtain ⟨hnodup, hnew, hhas⟩ := ih hpath
      obtain ⟨pre, x, e, suf, hrem, -, hcall, rfl⟩ := mem_frontCalls hm
      have hin : (x, e) ∈ remaining es c.1 := by
        rw [hrem]
        simp
      obtain ⟨s, -, hs⟩ := Option.bind_eq_some_iff.mp hnext
      obtain ⟨L, hset, rfl⟩ := Option.map_eq_some_iff.mp hs
      have hL := (Bitset.set_eq_some hset).2
      refine ⟨List.nodup_cons.mpr ⟨?_, hnodup⟩, ?_, ?_⟩
      · intro hmem
        have := (hnew _ hmem).1
        rw [hL] at this
        simp at this
      · intro i hi
        rcases List.mem_cons.mp hi with rfl | hi
        · exact ⟨(mem_remaining.mp hin).2,
            (hwf.mem_iff .callEntry e.id).mp ⟨e, mem_of_remaining hin, hcall, rfl⟩⟩
        · obtain ⟨hfalse, hlt⟩ := hnew i hi
          rw [hL, Bool.or_eq_false_iff] at hfalse
          exact ⟨hfalse.1, hlt⟩
      · intro i
        rw [hhas, hL, Bool.or_assoc]
        simp [List.mem_cons]

/-- How many operations are linearized. -/
def Bitset.size (n : ℕ) (L : Bitset) : ℕ := ((List.range n).filter L.has).length

/-- A path from the start has linearized its own operations. -/
theorem path_root (hwf : WfEntries es n) {d : Bitset × S} {ids : List ℕ}
    (h : (checkProblem M es).Path (checkRoot M n) ids d) :
    (∀ i, d.1.has i = true ↔ i ∈ ids) ∧ ids.length = d.1.size n ∧ ids.length ≤ n := by
  obtain ⟨hnodup, hnew, hhas⟩ := path_has hwf h
  have hmem : ∀ i, d.1.has i = true ↔ i ∈ ids := by
    intro i
    rw [hhas i, checkRoot, Bitset.has_newBitset, Bool.false_or, decide_eq_true_eq]
  have hperm : ids.Perm ((List.range n).filter d.1.has) := by
    rw [List.perm_ext_iff_of_nodup hnodup (List.nodup_range.filter _)]
    intro i
    rw [List.mem_filter, List.mem_range, hmem]
    exact ⟨fun hi => ⟨(hnew i hi).2, hi⟩, fun hi => hi.2⟩
  refine ⟨hmem, hperm.length_eq, ?_⟩
  calc ids.length = ((List.range n).filter d.1.has).length := hperm.length_eq
    _ ≤ (List.range n).length := List.length_filter_le _ _
    _ = n := List.length_range

/-- For each operation linearized in `d` a linearization as long as `d`'s is kept. -/
def Recorded (n : ℕ) (longest : Longest) (d : Bitset × S) : Prop :=
  ∀ i, d.1.has i = true → ∃ l, longest[i]? = some (some l) ∧ d.1.size n ≤ l.2.length

/-- What is kept for an operation is a linearizable prefix that includes it. -/
def LongestSound (M : CheckModel I O S) (es : List (Entry I O)) (n : ℕ) (longest : Longest) :
    Prop :=
  ∀ i (l : ℕ × List ℕ), longest[i]? = some (some l) →
    i ∈ l.2 ∧ ∃ d, (checkProblem M es).Path (checkRoot M n) l.2 d

/-- `longest` in the course of the search. -/
structure LongestOk (M : CheckModel I O S) (es : List (Entry I O)) (n : ℕ)
    (a : Search (Bitset × S) ℕ) (longest : Longest) : Prop where
  sound : LongestSound M es n longest
  visited : a.Visited (Recorded n longest)

/-- **What `longest` holds in the end**: for each operation a longest linearizable prefix that
includes it. -/
structure LongestSpec (M : CheckModel I O S) (es : List (Entry I O)) (n : ℕ)
    (longest : Longest) : Prop where
  sound : LongestSound M es n longest
  maximal : ∀ ids d, (checkProblem M es).Path (checkRoot M n) ids d → ∀ i ∈ ids,
    ∃ l, longest[i]? = some (some l) ∧ ids.length ≤ l.2.length

theorem LongestOk.start (M : CheckModel I O S) (es : List (Entry I O)) (n : ℕ) :
    LongestOk M es n (Search.start (checkProblem M es) (checkRoot M n))
      (List.replicate n none) := by
  refine ⟨?_, nofun⟩
  intro i l hl
  rw [List.getElem?_replicate] at hl
  split at hl <;> cases hl

section Longest

variable (hwf : WfEntries es n) {sim : Bitset × S → Bitset × S → Prop}
  {a a' : Search (Bitset × S) ℕ} (hinv : Search.Inv (checkProblem M es) sim (checkRoot M n) a)
include hwf hinv

/-- A turn that undoes a call. -/
theorem LongestOk.update {longest longest' : Longest} (h : LongestOk M es n a longest) {addr : ℕ}
    (hlen : longest.length = n) (hturn : a.turn (checkProblem M es) = .inl a')
    (hupdate : updateLongest addr a.path a.path longest = some longest') :
    LongestOk M es n a' longest' := by
  have hpath : (checkProblem M es).Path (checkRoot M n) a.path a.cfg := hinv.stacked.path
  obtain ⟨hmem, hsize, -⟩ := path_root hwf hpath
  have hlt : ∀ i ∈ a.path, i < longest.length := by
    intro i hi
    rw [hlen]
    exact ((path_has hwf hpath).2.1 i hi).2
  obtain ⟨l', hl', -, hspec⟩ := updateLongest_spec addr a.path hlt
  obtain rfl : longest' = l' := Option.some.inj (hupdate.symm.trans hl')
  constructor
  · intro i l hl
    rcases hspec i with ⟨heq, -⟩ | ⟨hi, heq, -⟩
    · exact h.sound i l (heq ▸ hl)
    · rw [heq] at hl
      cases hl
      exact ⟨hi, a.cfg, hpath⟩
  · refine h.visited.next hturn ?_ ?_
    · intro d hd i hi
      obtain ⟨l, hl, hle⟩ := hd i hi
      rcases hspec i with ⟨heq, -⟩ | ⟨-, heq, hlonger⟩
      · exact ⟨l, heq.trans hl, hle⟩
      · exact ⟨_, heq, le_trans hle (Nat.le_of_lt (hlonger l hl))⟩
    · intro _ _ i hi
      have hin := (hmem i).mp hi
      rcases hspec i with ⟨heq, hold⟩ | ⟨-, heq, -⟩
      · obtain ⟨l, hl, hle⟩ := hold hin
        exact ⟨l, heq.trans hl, hsize ▸ hle⟩
      · exact ⟨_, heq, hsize ▸ Nat.le_refl _⟩

/-- A search that has failed. -/
theorem LongestOk.failed (hsim : (checkProblem M es).Simulation sim)
    (hsame : ∀ c d, sim c d → c.1 = d.1) {longest : Longest} (h : LongestOk M es n a longest)
    (hturn : a.turn (checkProblem M es) = .inr none) : LongestSpec M es n longest := by
  refine ⟨h.sound, ?_⟩
  intro ids d hpath i hi
  obtain ⟨hmem, hsize, -⟩ := path_root hwf hpath
  obtain ⟨e, he, hde⟩ := (hinv.closed hturn).explored hsim hpath
  obtain ⟨-, hmemo⟩ := hinv.visited_none hturn h.visited
  have hbit : e.1.has i = true := by
    rw [← hsame d e hde]
    exact (hmem i).mpr hi
  have hrec : Recorded n longest e := by
    have hroot : Recorded n longest (checkRoot M n) := by
      intro j hj
      rw [checkRoot, Bitset.has_newBitset] at hj
      cases hj
    rcases he with rfl | hin
    · exact hroot
    · rcases hmemo e hin with rfl | hrec
      · exact hroot
      · exact hrec
  obtain ⟨l, hl, hle⟩ := hrec i hbit
  refine ⟨l, hl, ?_⟩
  rw [hsize, hsame d e hde]
  exact hle

/-- A search that has found a linearization. -/
theorem LongestSpec.found (hdone : (checkProblem M es).done a.cfg = true) (addr : ℕ) :
    LongestSpec M es n (List.replicate n (some (addr, a.path))) := by
  have hpath : (checkProblem M es).Path (checkRoot M n) a.path a.cfg := hinv.stacked.path
  obtain ⟨hmem, hsize, -⟩ := path_root hwf hpath
  have hall := (remaining_eq_nil_iff hwf a.cfg.1).mp (List.isEmpty_iff.mp hdone)
  have hfull : a.path.length = n := by
    rw [hsize, Bitset.size, List.filter_eq_self.mpr fun i hi => hall i (List.mem_range.mp hi),
      List.length_range]
  constructor
  · intro i l hl
    rw [List.getElem?_replicate] at hl
    split at hl
    · next hi =>
        cases hl
        exact ⟨(hmem i).mp (hall i hi), a.cfg, hpath⟩
    · cases hl
  · intro ids d hids i hi
    have hlt := ((path_has hwf hids).2.1 i hi).2
    refine ⟨(addr, a.path), by rw [List.getElem?_replicate, if_pos hlt], ?_⟩
    rw [hfull]
    exact (path_root hwf hids).2.2

end Longest

/-! ## §8. The verdict. -/

/-- How many turns a history of this many entries can take. -/
def checkBound (entries : ℕ) : ℕ := (entries + 2) ^ (entries + 1)

/-- What `checkSingle` answers. -/
structure Verdict (M : CheckModel I O S) (es : List (Entry I O)) (n : ℕ) (cp ok : Bool)
    (longest : Longest) : Prop where
  solvable : ok = true ↔ (checkProblem M es).Solvable (checkRoot M n)
  longest : cp = true → LongestSpec M es n longest

/-- **The invariant of the loop**: the variables are those of a search that has at most `k`
turns left. -/
def Running (M : CheckModel I O S) (es : List (Entry I O)) (n : ℕ) (cp : Bool) (k : ℕ)
    (c : Checker I O S) : Prop :=
  ∃ a, Refines es n c a ∧
    Search.Inv (checkProblem M es) (Accepts M es) (checkRoot M n) a ∧
    (cp = true → LongestOk M es n a c.longest) ∧
    a.measure (fun c => (remaining es c.1).length) (es.length + 2) = k

theorem Running.start (hwf : WfEntries es n) (cp : Bool) :
    ∃ c k, checkStart M es = some c ∧ Running M es n cp k c ∧ k < checkBound es.length := by
  obtain ⟨c, hc, href, hlong⟩ := checkStart_spec (M := M) hwf
  refine ⟨c, _, hc, ⟨_, href, Search.Inv.start _ _, fun _ => hlong ▸ LongestOk.start M es n, rfl⟩,
    ?_⟩
  have hnum : (remaining es (newBitset n)).length = es.length := by
    rw [remaining_newBitset]
    conv_rhs => rw [← numbered_map_snd es]
    rw [List.length_map]
  have hmeasure := Search.measure_start (checkProblem_ranked (M := M) hwf) (checkRoot M n)
  rw [checkBound]
  rw [← hnum] at hmeasure ⊢
  exact hmeasure

/-- **A turn goes on or answers.** -/
theorem Running.turn (hwf : WfEntries es n) (hequal : EqualSound M) {cp : Bool} {k : ℕ}
    {c : Checker I O S} (h : Running M es n cp k c) :
    (∃ c' k', checkTurn M cp false c = .inl c' ∧ k' < k ∧ Running M es n cp k' c') ∨
      ∃ ok longest, checkTurn M cp false c = .inr (some (ok, longest)) ∧
        Verdict M es n cp ok longest := by
  have hsim := checkProblem_simulation es hequal
  obtain ⟨a, href, hinv, hlong, rfl⟩ := h
  unfold checkTurn
  rcases checkBody_cases hwf href cp with
    ⟨hdone, hturn, hbody⟩ | ⟨hturn, hbody⟩ | ⟨c', a', hbody, hturn, href', hl⟩
  · right
    refine ⟨true, _, by rw [hbody], ?_, fun _ => LongestSpec.found hwf hinv hdone _⟩
    exact ⟨fun _ => ⟨_, _, hinv.stacked.path, hdone⟩, fun _ => rfl⟩
  · right
    refine ⟨false, _, by rw [hbody], ?_, ?_⟩
    · exact ⟨nofun, fun hsolv => absurd hsolv ((hinv.closed hturn).not_solvable hsim)⟩
    · intro hcp
      exact (hlong hcp).failed hwf hinv hsim (fun _ _ h => h.1) hturn
  · left
    refine ⟨c', _, by rw [hbody], Search.measure_lt (checkProblem_ranked hwf) hinv hturn, a', href',
      hinv.next hsim hturn, ?_, rfl⟩
    intro hcp
    rcases hl with ⟨htodo, heq⟩ | hupdate
    · have hok := hlong hcp
      rw [heq]
      exact ⟨hok.sound, hok.visited.next hturn (fun _ hd => hd) fun _ ht => absurd ht htodo⟩
    · rw [hcp, if_pos rfl] at hupdate
      exact (hlong hcp).update hwf hinv href.longest hturn hupdate

/-- **A killed search** stops at once; it answers `false` unless it has just found a
linearization. -/
theorem Running.killed (hwf : WfEntries es n) {cp : Bool} {k : ℕ} {c : Checker I O S}
    (h : Running M es n cp k c) :
    ∃ ok longest, checkTurn M cp true c = .inr (some (ok, longest)) ∧
      (Verdict M es n cp ok longest ∨
        ok = false ∧ (cp = true → LongestSound M es n longest)) := by
  obtain ⟨a, href, hinv, hlong, -⟩ := h
  unfold checkTurn
  by_cases hdone : remaining es c.linearized = []
  · have hd : (checkProblem M es).done a.cfg = true := href.done_iff.mpr hdone
    refine ⟨true, _, by rw [checkBody_done href hdone], Or.inl ⟨?_, fun _ =>
      LongestSpec.found hwf hinv hd _⟩⟩
    exact ⟨fun _ => ⟨_, _, hinv.stacked.path, hd⟩, fun _ => rfl⟩
  · have hbody : checkBody M cp true c = some (.inr (false, c.longest)) := by
      simp [checkBody, href.next_head, hdone]
    exact ⟨false, _, by rw [hbody], Or.inr ⟨rfl, fun hcp => (hlong hcp).sound⟩⟩

/-- **`checkSingle` returns without a panic**, with the right answer. -/
theorem checkSingle_total (hwf : WfEntries es n) (hequal : EqualSound M) (cp : Bool) (fuel : ℕ)
    (hfuel : checkBound es.length ≤ fuel) :
    ∃ ok longest, checkSingle M es cp fuel = some (some (ok, longest)) ∧
      Verdict M es n cp ok longest := by
  obtain ⟨c, k, hc, hrun, hk⟩ := Running.start (M := M) hwf cp
  have hturn : ∀ k c, Running M es n cp k c →
      (∃ c' k', checkTurn M cp false c = .inl c' ∧ k' < k ∧ Running M es n cp k' c') ∨
        ∃ r, checkTurn M cp false c = .inr r ∧
          ∃ ok longest, r = some (ok, longest) ∧ Verdict M es n cp ok longest := by
    intro k c hc
    rcases hc.turn hwf hequal with hnext | ⟨ok, longest, hturn, hv⟩
    · exact Or.inl hnext
    · exact Or.inr ⟨_, hturn, ok, longest, rfl, hv⟩
  obtain ⟨r, hr, ok, longest, rfl, hverdict⟩ :=
    loopExit_total hturn hrun (Nat.lt_of_lt_of_le hk hfuel)
  refine ⟨ok, longest, ?_, hverdict⟩
  simp only [checkSingle, hc, hr]

end ComputerScience.Porcupine
