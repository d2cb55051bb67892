/-
  ComputerScience.Porcupine.CheckEvents
  ─────────────────────────────────────
  **CHECKING A HISTORY OF EVENTS** (`renumber`, `convertEntries` and `checkEvents` in
  `porcupine/checker.go`).

  An event history lists calls and returns in the order in which they happened; the numbers of
  the operations are the user's.  `renumber` replaces them by `0, 1, …` in the order of their
  first appearance, which `checkSingle` relies on: it counts the operations and uses the
  numbers as indices.

  Main results:
    • `renumber_spec` — the new numbers are one-to-one and without gaps,
    • `solv_convertEntries` — the entries of an event history have a linearization if and only
      if the events have,
    • `checkEvents_ends` — every check of an event history ends with the right answer.
-/
import ComputerScience.Porcupine.Parallel
import ComputerScience.Porcupine.Prefixes

namespace ComputerScience.Porcupine

open ComputerScience.Lib

variable {I O S : Type}

/-! ## §1. The program. -/

/-- The loop of `renumber`; `m` is the map and `id` the next number. -/
def renumberFrom (m : ℤ → Option ℕ) (id : ℕ) : List (Event I O) → List (Event I O)
  | [] => []
  | v :: events =>
      match m v.id with
      | some r => { v with id := r } :: renumberFrom m id events
      | none => { v with id := id } :: renumberFrom (Function.update m v.id (some id)) (id + 1) events

/-- `renumber(events)` -/
def renumber (events : List (Event I O)) : List (Event I O) :=
  renumberFrom (fun _ => none) 0 events

/-- `kind` in `convertEntries` -/
def entryKind : EventKind → EntryKind
  | .callEvent => .callEntry
  | .returnEvent => .returnEntry

/-- `convertEntries(events)`: the index is the time.  The numbers are those of `renumber`. -/
def convertEntries (events : List (Event I O)) : List (Entry I O) :=
  events.mapIdx fun i elem =>
    ⟨entryKind elem.kind, elem.value, elem.id.toNat, i, elem.clientId⟩

/-- `checkEvents(model, history, verbose, timeout)` -/
def checkEvents [DecidableEq S] (ord : ℕ → PointerOrder) (model : UserModel I O S)
    (history : List (Event I O)) (verbose timeout : Bool) : System (Parallel I O S) :=
  let model := fillDefault model
  let partitions := model.partitionEvent history
  checkParallel model ord (partitions.map fun subhistory => convertEntries (renumber subhistory))
    verbose timeout

/-! ## §2. The new numbers. -/

/-- The numbers given so far are one-to-one and without gaps. -/
structure Numbering (m : ℤ → Option ℕ) (id : ℕ) : Prop where
  inj : ∀ x y r, m x = some r → m y = some r → x = y
  range : ∀ i, i < id ↔ ∃ x, m x = some i

theorem Numbering.insert {m : ℤ → Option ℕ} {id : ℕ} (h : Numbering m id) {x : ℤ}
    (hx : m x = none) : Numbering (Function.update m x (some id)) (id + 1) := by
  have hlt : ∀ y r, m y = some r → r < id := fun y r hy => (h.range r).mpr ⟨y, hy⟩
  constructor
  · intro y z r hy hz
    by_cases hyx : y = x <;> by_cases hzx : z = x
    · rw [hyx, hzx]
    · rw [hyx, Function.update_self, Option.some.injEq] at hy
      rw [Function.update_of_ne hzx] at hz
      have := hlt z r hz
      omega
    · rw [hzx, Function.update_self, Option.some.injEq] at hz
      rw [Function.update_of_ne hyx] at hy
      have := hlt y r hy
      omega
    · rw [Function.update_of_ne hyx] at hy
      rw [Function.update_of_ne hzx] at hz
      exact h.inj y z r hy hz
  · intro i
    constructor
    · intro hi
      by_cases hid : i = id
      · exact ⟨x, by rw [Function.update_self, hid]⟩
      · obtain ⟨y, hy⟩ := (h.range i).mp (by omega)
        have hyx : y ≠ x := by
          rintro rfl
          rw [hx] at hy
          cases hy
        exact ⟨y, by rw [Function.update_of_ne hyx, hy]⟩
    · rintro ⟨y, hy⟩
      by_cases hyx : y = x
      · rw [hyx, Function.update_self, Option.some.injEq] at hy
        omega
      · rw [Function.update_of_ne hyx] at hy
        have := hlt y i hy
        omega

/-- The loop gives every operation one number, and keeps the numbers there are. -/
theorem renumberFrom_spec (events : List (Event I O)) :
    ∀ {m : ℤ → Option ℕ} {id : ℕ}, Numbering m id →
      ∃ m' id', Numbering m' id' ∧ (∀ x r, m x = some r → m' x = some r) ∧
        (∀ x, (∃ r, m' x = some r) ↔ (∃ r, m x = some r) ∨ ∃ v ∈ events, v.id = x) ∧
        renumberFrom m id events = events.map fun v => { v with id := ((m' v.id).getD 0 : ℕ) } := by
  induction events with
  | nil =>
      intro m id hm
      exact ⟨m, id, hm, fun _ _ h => h, fun x => by simp, rfl⟩
  | cons v events ih =>
      intro m id hm
      cases hv : m v.id with
      | some r =>
          obtain ⟨m', id', hm', hkeep, hdom, heq⟩ := ih hm
          refine ⟨m', id', hm', hkeep, ?_, ?_⟩
          · intro x
            rw [hdom]
            constructor
            · rintro (hold | ⟨w, hw, rfl⟩)
              · exact Or.inl hold
              · exact Or.inr ⟨w, List.mem_cons_of_mem v hw, rfl⟩
            · rintro (hold | ⟨w, hw, rfl⟩)
              · exact Or.inl hold
              · rcases List.mem_cons.mp hw with rfl | hw
                · exact Or.inl ⟨r, hv⟩
                · exact Or.inr ⟨w, hw, rfl⟩
          · simp only [renumberFrom, hv, List.map_cons, heq, hkeep v.id r hv, Option.getD_some]
      | none =>
          obtain ⟨m', id', hm', hkeep, hdom, heq⟩ := ih (hm.insert hv)
          have hnew : m' v.id = some id := hkeep v.id id (Function.update_self ..)
          refine ⟨m', id', hm', ?_, ?_, ?_⟩
          · intro x r hx
            refine hkeep x r ?_
            rw [Function.update_of_ne, hx]
            rintro rfl
            rw [hv] at hx
            cases hx
          · intro x
            rw [hdom]
            by_cases hx : x = v.id
            · subst hx
              exact ⟨fun _ => Or.inr ⟨v, List.mem_cons_self, rfl⟩, fun _ =>
                Or.inl ⟨id, Function.update_self ..⟩⟩
            · rw [Function.update_of_ne hx]
              constructor
              · rintro (hold | ⟨w, hw, rfl⟩)
                · exact Or.inl hold
                · exact Or.inr ⟨w, List.mem_cons_of_mem v hw, rfl⟩
              · rintro (hold | ⟨w, hw, rfl⟩)
                · exact Or.inl hold
                · rcases List.mem_cons.mp hw with rfl | hw
                  · exact absurd rfl hx
                  · exact Or.inr ⟨w, hw, rfl⟩
          · simp only [renumberFrom, hv, List.map_cons, heq, hnew, Option.getD_some]

/-- **`renumber`** gives the operations the numbers below some `n`, one-to-one. -/
theorem renumber_spec (events : List (Event I O)) :
    ∃ (f : ℤ → ℕ) (n : ℕ),
      (∀ v ∈ events, ∀ w ∈ events, f v.id = f w.id → v.id = w.id) ∧
      (∀ i, i < n ↔ ∃ v ∈ events, f v.id = i) ∧
      renumber events = events.map fun v => { v with id := (f v.id : ℕ) } := by
  have hnone : Numbering (fun _ => none) 0 :=
    ⟨nofun, fun i => ⟨fun h => absurd h (Nat.not_lt_zero i), nofun⟩⟩
  obtain ⟨m, n, hm, -, hdom, heq⟩ := renumberFrom_spec events hnone
  have hget : ∀ v ∈ events, ∃ r, m v.id = some r ∧ (m v.id).getD 0 = r := by
    intro v hv
    obtain ⟨r, hr⟩ := (hdom v.id).mpr (Or.inr ⟨v, hv, rfl⟩)
    exact ⟨r, hr, by rw [hr, Option.getD_some]⟩
  refine ⟨fun x => (m x).getD 0, n, ?_, ?_, heq⟩
  · intro v hv w hw hvw
    obtain ⟨r, hr, hr'⟩ := hget v hv
    obtain ⟨q, hq, hq'⟩ := hget w hw
    refine hm.inj v.id w.id r hr ?_
    dsimp only at hvw
    rw [hr', hq'] at hvw
    rw [hq, hvw]
  · intro i
    rw [hm.range]
    constructor
    · rintro ⟨x, hx⟩
      rcases (hdom x).mp ⟨i, hx⟩ with ⟨r, hr⟩ | ⟨v, hv, rfl⟩
      · cases hr
      · refine ⟨v, hv, ?_⟩
        show (m v.id).getD 0 = i
        rw [hx, Option.getD_some]
    · rintro ⟨v, hv, hi⟩
      obtain ⟨r, hr, hr'⟩ := hget v hv
      refine ⟨v.id, ?_⟩
      rw [hr, ← hr', ← hi]

/-! ## §3. Complete event histories. -/

/-- Every operation is called once and returns once, in this order. -/
structure CompleteEvents (events : List (Event I O)) : Prop where
  nodup : (events.map fun v => (v.kind, v.id)).Nodup
  mates : ∀ v ∈ events, ∀ k, ∃ w ∈ events, w.kind = k ∧ w.id = v.id
  order : events.Pairwise fun a b =>
    ¬ (a.kind = .returnEvent ∧ b.kind = .callEvent ∧ a.id = b.id)
  input : ∀ v ∈ events, v.kind = .callEvent → ∃ i, v.value = .input i
  output : ∀ v ∈ events, v.kind = .returnEvent → ∃ o, v.value = .output o

/-- Operation `j` has returned when operation `i` is called. -/
def EventPrecedes (events : List (Event I O)) (j i : ℤ) : Prop :=
  ∃ r c, [r, c].Sublist events ∧ r.kind = .returnEvent ∧ r.id = j ∧ c.kind = .callEvent ∧ c.id = i

/-- `Step` on the call and the return of operation `id`. -/
def acceptEvent (M : Model I O S) (events : List (Event I O)) (s : S) (id : ℤ) : Option S := do
  let c ← events.find? fun v => decide (v.kind = .callEvent ∧ v.id = id)
  let r ← events.find? fun v => decide (v.kind = .returnEvent ∧ v.id = id)
  let (ok, s') ← M.stepAny s c.value r.value
  if ok then some s' else none

/-- The operations, in the order of their calls. -/
def calledIds (events : List (Event I O)) : List ℤ :=
  (events.filter fun v => decide (v.kind = .callEvent)).map Event.id

/-- The operations can be put in an order that the model accepts and that does not contradict
the order of the events. -/
def EventsLinearizable (M : Model I O S) (events : List (Event I O)) : Prop :=
  ∃ l, l.Perm (calledIds events) ∧ l.Pairwise (fun i j => ¬ EventPrecedes events j i) ∧
    Legal (acceptEvent M events) M.init l

/-- What the checker sees of an entry. -/
def Entry.view (e : Entry I O) : EntryKind × Value I O × ℕ := (e.kind, e.value, e.id)

/-- The same of an event, with its number. -/
def Event.view (f : ℤ → ℕ) (v : Event I O) : EntryKind × Value I O × ℕ :=
  (entryKind v.kind, v.value, f v.id)

theorem convertEntries_view {events : List (Event I O)} {f : ℤ → ℕ}
    (heq : renumber events = events.map fun v => { v with id := (f v.id : ℕ) }) :
    (convertEntries (renumber events)).map Entry.view = events.map (Event.view f) := by
  refine List.ext_getElem? fun i => ?_
  rw [heq, convertEntries, List.getElem?_map, List.getElem?_mapIdx, List.getElem?_map,
    List.getElem?_map]
  cases events[i]? <;> simp [Entry.view, Event.view]

/-- Two elements of a list with the same view are in the same order in the other one. -/
theorem pair_sublist_of_map {α β γ : Type} {g : α → γ} {g' : β → γ} {l : List α} {l' : List β}
    (h : l.map g = l'.map g') {a b : α} (hsub : [a, b].Sublist l) :
    ∃ a' b', [a', b'].Sublist l' ∧ g' a' = g a ∧ g' b' = g b := by
  have hsub' := hsub.map g
  rw [h] at hsub'
  obtain ⟨k, hk, heq⟩ := List.sublist_map_iff.mp hsub'
  obtain ⟨a', k, rfl, ha, heq⟩ := List.map_eq_cons_iff.mp heq.symm
  obtain ⟨b', k, rfl, hb, heq⟩ := List.map_eq_cons_iff.mp heq
  obtain rfl := List.map_eq_nil_iff.mp heq
  exact ⟨a', b', hk, ha, hb⟩

theorem entryKind_inj {k k' : EventKind} : entryKind k = entryKind k' ↔ k = k' := by
  cases k <;> cases k' <;> simp [entryKind]

section Complete

variable {events : List (Event I O)} (hc : CompleteEvents events) {f : ℤ → ℕ} {n : ℕ}
  (hinj : ∀ v ∈ events, ∀ w ∈ events, f v.id = f w.id → v.id = w.id)
  (hrange : ∀ i, i < n ↔ ∃ v ∈ events, f v.id = i) {es : List (Entry I O)}
  (hview : es.map Entry.view = events.map (Event.view f))
include hview

omit hc hinj hrange in
/-- The entry of an event. -/
theorem exists_entry {v : Event I O} (hv : v ∈ events) : ∃ e ∈ es, e.view = v.view f := by
  have hin : v.view f ∈ es.map Entry.view := by
    rw [hview]
    exact List.mem_map.mpr ⟨v, hv, rfl⟩
  obtain ⟨e, he, heq⟩ := List.mem_map.mp hin
  exact ⟨e, he, heq⟩

omit hc hinj hrange in
/-- The event of an entry. -/
theorem exists_event {e : Entry I O} (he : e ∈ es) : ∃ v ∈ events, v.view f = e.view := by
  have hin : e.view ∈ events.map (Event.view f) := by
    rw [← hview]
    exact List.mem_map.mpr ⟨e, he, rfl⟩
  obtain ⟨v, hv, heq⟩ := List.mem_map.mp hin
  exact ⟨v, hv, heq⟩

omit hc hrange in
include hinj in
/-- The order of the entries is the order of the events. -/
theorem precedes_view_iff {v w : Event I O} (hv : v ∈ events) (hw : w ∈ events) :
    Precedes es (f v.id) (f w.id) ↔ EventPrecedes events v.id w.id := by
  constructor
  · rintro ⟨r, c, hsub, hret, hrid, hcall, hcid⟩
    obtain ⟨r', c', hl, hr, hc⟩ := pair_sublist_of_map hview hsub
    simp only [Entry.view, Event.view, Prod.mk.injEq] at hr hc
    have hr' : r' ∈ events := hl.subset List.mem_cons_self
    have hc' : c' ∈ events := hl.subset (List.mem_cons_of_mem _ List.mem_cons_self)
    refine ⟨r', c', hl, ?_, hinj r' hr' v hv (hr.2.2.trans hrid), ?_,
      hinj c' hc' w hw (hc.2.2.trans hcid)⟩
    · exact entryKind_inj.mp (hr.1.trans hret)
    · exact entryKind_inj.mp (hc.1.trans hcall)
  · rintro ⟨r, c, hsub, hret, hrid, hcall, hcid⟩
    obtain ⟨r', c', hl, hr, hc⟩ := pair_sublist_of_map hview.symm hsub
    simp only [Entry.view, Event.view, Prod.mk.injEq] at hr hc
    refine ⟨r', c', hl, ?_, by rw [hr.2.2, hrid], ?_, by rw [hc.2.2, hcid]⟩
    · rw [hr.1, hret]
      rfl
    · rw [hc.1, hcall]
      rfl

include hc hinj hrange

/-- **The entries are those of a complete history.** -/
theorem wfEntries_of_view : WfEntries es n := by
  have hkeys : (es.map fun e => (e.kind, e.id)) = events.map fun v => (entryKind v.kind, f v.id) := by
    have := congrArg (List.map fun x : EntryKind × Value I O × ℕ => (x.1, x.2.2)) hview
    rw [List.map_map, List.map_map] at this
    exact this
  constructor
  · rw [hkeys, List.perm_ext_iff_of_nodup]
    · rintro ⟨k, i⟩
      have hflat : (k, i) ∈ ((List.range n).flatMap fun i =>
          [(EntryKind.callEntry, i), (.returnEntry, i)]) ↔ i < n := by
        cases k <;> simp
      rw [hflat, hrange, List.mem_map]
      constructor
      · rintro ⟨v, hv, heq⟩
        exact ⟨v, hv, congrArg Prod.snd heq⟩
      · rintro ⟨v, hv, rfl⟩
        cases k with
        | callEntry =>
            obtain ⟨w, hw, hk, hid⟩ := hc.mates v hv .callEvent
            exact ⟨w, hw, by rw [hk, hid]; rfl⟩
        | returnEntry =>
            obtain ⟨w, hw, hk, hid⟩ := hc.mates v hv .returnEvent
            exact ⟨w, hw, by rw [hk, hid]; rfl⟩
    · refine List.Nodup.map_on ?_ (List.Nodup.of_map _ hc.nodup)
      intro v hv w hw heq
      rw [Prod.mk.injEq, entryKind_inj] at heq
      exact List.inj_on_of_nodup_map hc.nodup hv hw (by rw [heq.1, hinj v hv w hw heq.2])
    · rw [List.nodup_flatMap]
      refine ⟨fun i _ => by simp, List.Pairwise.imp ?_ (List.nodup_range (n := n))⟩
      intro i j hij
      simp [Function.onFun, hij.symm]
  · refine List.pairwise_of_forall_sublist fun {a b} hsub => ?_
    rintro ⟨hret, hcall, hid⟩
    obtain ⟨a', b', hl, ha, hb⟩ := pair_sublist_of_map hview hsub
    simp only [Entry.view, Event.view, Prod.mk.injEq] at ha hb
    have ha' : a' ∈ events := hl.subset List.mem_cons_self
    have hb' : b' ∈ events := hl.subset (List.mem_cons_of_mem _ List.mem_cons_self)
    refine List.pairwise_iff_forall_sublist.mp hc.order hl ⟨?_, ?_, ?_⟩
    · exact entryKind_inj.mp (ha.1.trans hret)
    · exact entryKind_inj.mp (hb.1.trans hcall)
    · exact hinj a' ha' b' hb' (by rw [ha.2.2, hb.2.2, hid])
  · intro e he hk
    obtain ⟨v, hv, hve⟩ := exists_event hview he
    simp only [Entry.view, Event.view, Prod.mk.injEq] at hve
    rw [← hve.2.1]
    exact hc.input v hv (entryKind_inj.mp (hve.1.trans hk))
  · intro e he hk
    obtain ⟨v, hv, hve⟩ := exists_event hview he
    simp only [Entry.view, Event.view, Prod.mk.injEq] at hve
    rw [← hve.2.1]
    exact hc.output v hv (entryKind_inj.mp (hve.1.trans hk))

/-- The model is asked the same about an operation and its number. -/
theorem acceptId_view (M : Model I O S) (s : S) {v : Event I O} (hv : v ∈ events) :
    acceptId M es s (f v.id) = acceptEvent M events s v.id := by
  have hwf := wfEntries_of_view hc hinj hrange hview
  have hfind : ∀ k, ∃ e w, (es.find? fun x => decide (x.kind = entryKind k ∧ x.id = f v.id)) =
        some e ∧ (events.find? fun x => decide (x.kind = k ∧ x.id = v.id)) = some w ∧
        e.value = w.value := by
    intro k
    obtain ⟨w, hw, hk, hid⟩ := hc.mates v hv k
    obtain ⟨e, he, hew⟩ := exists_entry hview hw
    simp only [Entry.view, Event.view, Prod.mk.injEq] at hew
    refine ⟨e, w, ?_, ?_, hew.2.1⟩
    · have := hwf.find_eq (k := entryKind k) he (by rw [hew.1, hk])
      rw [hew.2.2, hid] at this
      exact this
    · cases hf : events.find? fun x => decide (x.kind = k ∧ x.id = v.id) with
      | none =>
          have := List.find?_eq_none.mp hf w hw
          simp [hk, hid] at this
      | some x =>
          have hx := List.mem_of_find?_eq_some hf
          have hprop := List.find?_some hf
          simp only [decide_eq_true_eq] at hprop
          rw [List.inj_on_of_nodup_map hc.nodup hx hw (by rw [hprop.1, hprop.2, hk, hid])]
  obtain ⟨e, w, he, hw, hval⟩ := hfind .callEvent
  obtain ⟨e', w', he', hw', hval'⟩ := hfind .returnEvent
  have hcall : (es.find? fun x => decide (x.kind = .callEntry ∧ x.id = f v.id)) = some e := he
  have hret : (es.find? fun x => decide (x.kind = .returnEntry ∧ x.id = f v.id)) = some e' := he'
  simp only [acceptId, acceptEvent, hcall, hret, hw, hw', Option.bind_eq_bind, Option.bind_some,
    hval, hval']

theorem legal_view (M : Model I O S) {l : List ℤ} (hl : ∀ x ∈ l, ∃ v ∈ events, v.id = x) (s : S) :
    Legal (acceptId M es) s (l.map f) ↔ Legal (acceptEvent M events) s l := by
  induction l generalizing s with
  | nil => exact Iff.rfl
  | cons x l ih =>
      obtain ⟨v, hv, rfl⟩ := hl x List.mem_cons_self
      have ih' := ih fun y hy => hl y (List.mem_cons_of_mem _ hy)
      simp only [List.map_cons, Legal, acceptId_view hc hinj hrange hview M s hv, ih']

end Complete

theorem mem_calledIds {events : List (Event I O)} {x : ℤ} :
    x ∈ calledIds events ↔ ∃ v ∈ events, v.kind = .callEvent ∧ v.id = x := by
  simp only [calledIds, List.mem_map, List.mem_filter, decide_eq_true_eq]
  constructor
  · rintro ⟨v, ⟨hv, hk⟩, rfl⟩
    exact ⟨v, hv, hk, rfl⟩
  · rintro ⟨v, hv, hk, rfl⟩
    exact ⟨v, ⟨hv, hk⟩, rfl⟩

/-- The entries of a complete event history. -/
theorem convertEntries_wf {events : List (Event I O)} (hc : CompleteEvents events) :
    WfEntries (convertEntries (renumber events)) ((convertEntries (renumber events)).length / 2) := by
  obtain ⟨f, n, hinj, hrange, heq⟩ := renumber_spec events
  have hwf := wfEntries_of_view hc hinj hrange (convertEntries_view heq)
  have hhalf : (convertEntries (renumber events)).length / 2 = n := by
    rw [hwf.length_eq]
    omega
  rw [hhalf]
  exact hwf

/-- **The entries have a linearization** if and only if the events have. -/
theorem solv_convertEntries (M : CheckModel I O S) {events : List (Event I O)}
    (hc : CompleteEvents events) :
    Solv M (convertEntries (renumber events)) ↔ EventsLinearizable M.toModel events := by
  obtain ⟨f, n, hinj, hrange, heq⟩ := renumber_spec events
  have hview := convertEntries_view heq
  have hwf := wfEntries_of_view hc hinj hrange hview
  have hhalf : (convertEntries (renumber events)).length / 2 = n := by
    rw [hwf.length_eq]
    omega
  have hcalled : ∀ x ∈ calledIds events, ∃ v ∈ events, v.id = x := by
    intro x hx
    obtain ⟨v, hv, -, hid⟩ := mem_calledIds.mp hx
    exact ⟨v, hv, hid⟩
  -- the numbers of the operations that are called are those below `n`
  have hnumbers : ((calledIds events).map f).Perm (List.range n) := by
    rw [List.perm_ext_iff_of_nodup _ List.nodup_range]
    · intro i
      rw [List.mem_range, hrange, List.mem_map]
      constructor
      · rintro ⟨x, hx, rfl⟩
        obtain ⟨v, hv, rfl⟩ := hcalled x hx
        exact ⟨v, hv, rfl⟩
      · rintro ⟨v, hv, rfl⟩
        obtain ⟨w, hw, hk, hid⟩ := hc.mates v hv .callEvent
        exact ⟨v.id, mem_calledIds.mpr ⟨w, hw, hk, hid⟩, rfl⟩
    · refine List.Nodup.map_on ?_ ?_
      · intro x hx y hy hxy
        obtain ⟨v, hv, rfl⟩ := hcalled x hx
        obtain ⟨w, hw, rfl⟩ := hcalled y hy
        exact hinj v hv w hw hxy
      · refine List.Nodup.map_on ?_ ((List.Nodup.of_map _ hc.nodup).filter _)
        intro v hv w hw hvw
        obtain ⟨hv, hkv⟩ := List.mem_filter.mp hv
        obtain ⟨hw, hkw⟩ := List.mem_filter.mp hw
        exact List.inj_on_of_nodup_map hc.nodup hv hw
          (by rw [of_decide_eq_true hkv, of_decide_eq_true hkw, hvw])
  have hpair : ∀ {l : List ℤ}, (∀ x ∈ l, ∃ v ∈ events, v.id = x) →
      ((l.map f).Pairwise (fun i j => ¬ Precedes (convertEntries (renumber events)) j i) ↔
        l.Pairwise fun i j => ¬ EventPrecedes events j i) := by
    intro l hl
    rw [List.pairwise_map]
    refine List.Pairwise.iff_of_mem fun {x y} hx hy => ?_
    obtain ⟨v, hv, rfl⟩ := hl x hx
    obtain ⟨w, hw, rfl⟩ := hl y hy
    rw [precedes_view_iff hinj hview hw hv]
  rw [Solv, hhalf, solvable_iff hwf]
  constructor
  · rintro ⟨ids, hids, hord, hlegal⟩
    have hmap : ids.Perm ((calledIds events).map f) := hids.trans hnumbers.symm
    obtain ⟨l, rfl, hl⟩ := (congrFun₂ (List.eq_map_comp_perm f) ids (calledIds events)).mpr hmap
    have hl' : ∀ x ∈ l, ∃ v ∈ events, v.id = x := fun x hx => hcalled x (hl.mem_iff.mp hx)
    exact ⟨l, hl, (hpair hl').mp hord, (legal_view hc hinj hrange hview M.toModel hl' _).mp hlegal⟩
  · rintro ⟨l, hl, hord, hlegal⟩
    have hl' : ∀ x ∈ l, ∃ v ∈ events, v.id = x := fun x hx => hcalled x (hl.mem_iff.mp hx)
    exact ⟨l.map f, (hl.map f).trans hnumbers, (hpair hl').mpr hord,
      (legal_view hc hinj hrange hview M.toModel hl' _).mpr hlegal⟩

/-! ## §4. The answer. -/

/-- How a check of an event history ends. -/
def EventsChecked [DecidableEq S] (model : UserModel I O S) (history : List (Event I O))
    (timeout : Bool) (s : Parallel I O S) : Prop :=
  s.crashed = false ∧ (∀ g ∈ s.goroutines, isExited g = 1) ∧
    ∃ result info, s.main = .finished result info ∧
      (result = .ok → EventsLinearizable (fillDefault model).toModel history) ∧
      (result = .illegal → ¬ EventsLinearizable (fillDefault model).toModel history) ∧
      (result = .unknown → timeout = true)

/-- **The check of an event history** with a model that does not split it: whatever the
interleaving it ends, without a panic, with all goroutines gone, and the answer is right. -/
theorem checkEvents_ends [DecidableEq S] (ord : ℕ → PointerOrder) (model : UserModel I O S)
    (hequal : EqualSound (fillDefault model)) (hpart : model.partitionEvent = none)
    {history : List (Event I O)} (hc : CompleteEvents history) (verbose timeout : Bool) :
    (checkEvents ord model history verbose timeout).EndsIn
      (EventsChecked model history timeout) := by
  have hparts : (fillDefault model).partitionEvent history = [history] := by
    simp [fillDefault, hpart, noPartitionEvent]
  have hsys : checkEvents ord model history verbose timeout = checkParallel (fillDefault model) ord
      [convertEntries (renumber history)] verbose timeout := by
    simp only [checkEvents, hparts, List.map_cons, List.map_nil]
  have hwf : ∀ es ∈ [convertEntries (renumber history)], WfEntries es (es.length / 2) := by
    intro es hes
    rw [List.mem_singleton.mp hes]
    exact convertEntries_wf hc
  have hsolv := solv_convertEntries (fillDefault model) hc
  rw [hsys]
  obtain ⟨hfinite, hgood⟩ := checkParallel_ends hwf hequal ord verbose timeout
  refine ⟨hfinite, ?_⟩
  intro s hreach hstuck
  obtain ⟨hcrashed, hexited, hmain⟩ := hgood s hreach hstuck
  rw [if_neg fun h => List.cons_ne_nil _ _ h.1] at hmain
  obtain ⟨result, info, hfinished⟩ := hmain
  obtain ⟨hok, hillegal, hunknown⟩ := checkParallel_verdict hwf hequal hreach hfinished
  refine ⟨hcrashed, hexited, result, info, hfinished, ?_, ?_, hunknown⟩
  · intro hr
    exact hsolv.mp (hok hr _ List.mem_cons_self)
  · intro hr hlin
    obtain ⟨es, hes, hnot⟩ := hillegal hr
    rw [List.mem_singleton.mp hes] at hnot
    exact hnot (hsolv.mpr hlin)

/-- `put(a, x)` of operation 7 and `get(a) -> x` of operation -3, which overlap. -/
def overlappingEvents : List (Event KvInput KvOutput) :=
  [⟨0, .callEvent, .input ⟨1, [97], [120]⟩, 7⟩, ⟨1, .callEvent, .input ⟨0, [97], []⟩, -3⟩,
   ⟨0, .returnEvent, .output ⟨[]⟩, 7⟩, ⟨1, .returnEvent, .output ⟨[120]⟩, -3⟩]

theorem overlappingEvents_complete : CompleteEvents overlappingEvents := by
  refine ⟨by decide, ?_, by decide, ?_, ?_⟩
  · intro v hv k
    have hall : ∀ v ∈ overlappingEvents, ∀ k : EventKind,
        k = .callEvent ∨ k = .returnEvent → ∃ w ∈ overlappingEvents, w.kind = k ∧ w.id = v.id := by
      rintro v hv k (rfl | rfl) <;> revert v <;> decide
    exact hall v hv k (by cases k <;> simp)
  · intro v hv hk
    simp only [overlappingEvents, List.mem_cons, List.not_mem_nil, or_false] at hv
    rcases hv with rfl | rfl | rfl | rfl
    · exact ⟨_, rfl⟩
    · exact ⟨_, rfl⟩
    · cases hk
    · cases hk
  · intro v hv hk
    simp only [overlappingEvents, List.mem_cons, List.not_mem_nil, or_false] at hv
    rcases hv with rfl | rfl | rfl | rfl
    · cases hk
    · cases hk
    · exact ⟨_, rfl⟩
    · exact ⟨_, rfl⟩

theorem checkEvents_ends_overlapping :
    (checkEvents (S := GoString) (fun _ => ⟨id, fun _ => List.Perm.refl _⟩)
      ⟨none, none, [], kvStep, none⟩ overlappingEvents true true).EndsIn
      (EventsChecked ⟨none, none, [], kvStep, none⟩ overlappingEvents true) :=
  checkEvents_ends _ _ (equalSound_shallowEqual rfl) rfl overlappingEvents_complete true true

end ComputerScience.Porcupine
