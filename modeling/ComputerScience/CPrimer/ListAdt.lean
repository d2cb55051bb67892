/-
  ComputerScience.CPrimer.ListAdt
  ───────────────────────────────
  **A LINKED LIST OF ITEMS** (`C_Primer_Plus/ADT/list.c`, `list.h`).

  The heap maps addresses to nodes.  `malloc` is an oracle: at each call it gives an address
  that is not allocated, with whatever the new node contains, or NULL.  A step through a
  null pointer or through a node that was freed is undefined and ends the call with `none`;
  so does a loop that has used up its `fuel`, and a call *returns* a result if it does so
  for all large enough fuel.

  Between the calls the list is a chain of different, allocated nodes, and the items in it
  are the history of what was added.

  Main results:
    • `countLoop_eq`, `traverseLoop_eq`, `scanLoop_eq`, `emptyLoop_eq` — the four loops,
    • `Represents.addItem`, `Represents.emptyTheList` — the two calls that change the list,
    • `list_calls` — what every call does, after any sequence of calls.
-/
import ComputerScience.Lib.Chain
import ComputerScience.Lib.TransitionSystem
import Mathlib.Algebra.Ring.Nat
import Mathlib.Data.List.Nodup

namespace ComputerScience.CPrimer

open ComputerScience.Lib

variable {Item : Type}

/-! ## §1. The code. -/

abbrev Heap (Item : Type) := ℕ → Option (Node Item)

/-- The heap and the variable `*plist`. -/
structure ListVar (Item : Type) where
  heap : Heap Item
  plist : Option ℕ

/-- What `malloc(sizeof(Node))` gives: a node that was not allocated, or NULL. -/
abbrev Malloc (Item : Type) := Option (ℕ × Node Item)

/-- `InitializeList` -/
def initializeList (s : ListVar Item) : ListVar Item := { s with plist := none }

/-- `ListIsEmpty` -/
def listIsEmpty (s : ListVar Item) : Bool := s.plist == none

/-- `ListIsFull`: the node is freed again; `free(NULL)` does nothing. -/
def listIsFull (s : ListVar Item) (pt : Malloc Item) : ListVar Item × Bool :=
  match pt with
  | none => (s, true)
  | some (a, junk) =>
      ({ s with heap := Function.update (Function.update s.heap a (some junk)) a none }, false)

/-- The loop of `ListItemCount`; `count` is an `unsigned int`. -/
def countLoop (heap : Heap Item) : ℕ → Option ℕ → ℕ → Option ℕ
  | 0, _, _ => none
  | _ + 1, none, count => some count
  | fuel + 1, some a, count =>
      (heap a).bind fun pnode => countLoop heap fuel pnode.next ((count + 1) % 2 ^ 32)

/-- The loop of `Traverse`, with the items to which `pfun` was applied. -/
def traverseLoop (heap : Heap Item) : ℕ → Option ℕ → List Item → Option (List Item)
  | 0, _, _ => none
  | _ + 1, none, applied => some applied
  | fuel + 1, some a, applied =>
      (heap a).bind fun pnode => traverseLoop heap fuel pnode.next (applied ++ [pnode.val])

/-- `while (scan->next != NULL) scan = scan->next;` -/
def scanLoop (heap : Heap Item) : ℕ → ℕ → Option ℕ
  | 0, _ => none
  | fuel + 1, scan =>
      (heap scan).bind fun node =>
        match node.next with
        | none => some scan
        | some next => scanLoop heap fuel next

/-- `p->next = next` -/
def setNext (heap : Heap Item) (p : ℕ) (next : Option ℕ) : Option (Heap Item) :=
  (heap p).map fun node => Function.update heap p (some { node with next := next })

/-- `CopyToNode` -/
def copyToNode (heap : Heap Item) (item : Item) (pnode : ℕ) : Option (Heap Item) :=
  (heap pnode).map fun node => Function.update heap pnode (some { node with val := item })

/-- `AddItem`, with what `malloc` gives to it. -/
def addItem (fuel : ℕ) (s : ListVar Item) (item : Item) (pnew : Malloc Item) :
    Option (ListVar Item × Bool) :=
  match pnew with
  | none => some (s, false)
  | some (a, junk) =>
      (copyToNode (Function.update s.heap a (some junk)) item a).bind fun heap =>
        (setNext heap a none).bind fun heap =>
          match s.plist with
          | none => some (⟨heap, some a⟩, true)
          | some head =>
              (scanLoop heap fuel head).bind fun scan =>
                (setNext heap scan (some a)).bind fun heap => some (⟨heap, some head⟩, true)

/-- The loop of `EmptyTheList`, with the addresses that were freed. -/
def emptyLoop : ℕ → Heap Item → Option ℕ → List ℕ → Option (Heap Item × List ℕ)
  | 0, _, _, _ => none
  | _ + 1, heap, none, freed => some (heap, freed)
  | fuel + 1, heap, some a, freed =>
      (heap a).bind fun node =>
        emptyLoop fuel (Function.update heap a none) node.next (freed ++ [a])

/-- The calls on an initialized list. -/
inductive ListCall (Item : Type) where
  | listIsEmpty
  | listIsFull (pt : Malloc Item)
  | listItemCount
  | addItem (item : Item) (pnew : Malloc Item)
  | traverse
  | emptyTheList

/-- What a call returns: a truth value, a number, the items `pfun` was applied to, or the
addresses that were freed. -/
inductive Answer (Item : Type) where
  | bool (b : Bool)
  | count (n : ℕ)
  | applied (items : List Item)
  | freed (nodes : List ℕ)

/-- One call. -/
def ListCall.run (fuel : ℕ) (s : ListVar Item) :
    ListCall Item → Option (ListVar Item × Answer Item)
  | .listIsEmpty => some (s, .bool (CPrimer.listIsEmpty s))
  | .listIsFull pt => some ((CPrimer.listIsFull s pt).1, .bool (CPrimer.listIsFull s pt).2)
  | .listItemCount => (countLoop s.heap fuel s.plist 0).map fun n => (s, .count n)
  | .addItem item pnew =>
      (CPrimer.addItem fuel s item pnew).map fun r => (r.1, .bool r.2)
  | .traverse => (traverseLoop s.heap fuel s.plist []).map fun items => (s, .applied items)
  | .emptyTheList =>
      (emptyLoop fuel s.heap s.plist []).map fun r => (⟨r.1, none⟩, .freed r.2)

/-- The call returns `answer` and leaves `s'`. -/
def Returns (s : ListVar Item) (c : ListCall Item) (s' : ListVar Item) (answer : Answer Item) :
    Prop :=
  ∃ enough, ∀ fuel ≥ enough, c.run fuel s = some (s', answer)

/-- `malloc` gives an address that is not allocated. -/
def ListCall.Fresh (s : ListVar Item) : ListCall Item → Prop
  | .listIsFull (some (a, _)) | .addItem _ (some (a, _)) => s.heap a = none
  | _ => True

/-- The items whose `AddItem` has returned true since the last `EmptyTheList`. -/
def record (items : List Item) : ListCall Item → Answer Item → List Item
  | .addItem item _, .bool true => items ++ [item]
  | .emptyTheList, _ => []
  | _, _ => items

/-- A list with its history. -/
structure Session (Item : Type) where
  var : ListVar Item
  items : List Item

/-- Any sequence of calls on a list that `InitializeList` has set up, in any heap. -/
def listSystem (Item : Type) : System (Session Item) where
  init s := ∃ var, s = ⟨initializeList var, []⟩
  step s s' := ∃ c answer, c.Fresh s.var ∧ Returns s.var c s'.var answer ∧
    s'.items = record s.items c answer

/-! ## §2. The loops. -/

variable {heap : Heap Item} {p : Option ℕ} {l : List (ℕ × Item)}

/-- `ListItemCount` counts the nodes, modulo `2^32`. -/
theorem countLoop_eq (h : Chain heap p l) {fuel count : ℕ} (hfuel : l.length < fuel)
    (hcount : count < 2 ^ 32) :
    countLoop heap fuel p count = some ((count + l.length) % 2 ^ 32) := by
  induction l generalizing p fuel count with
  | nil =>
      cases fuel with
      | zero => cases hfuel
      | succ fuel =>
          rw [chain_nil.mp h, countLoop, List.length_nil, Nat.add_zero, Nat.mod_eq_of_lt hcount]
  | cons x l ih =>
      obtain ⟨a, v⟩ := x
      obtain ⟨rfl, q, ha, hq⟩ := h
      cases fuel with
      | zero => cases hfuel
      | succ fuel =>
          rw [List.length_cons] at hfuel ⊢
          rw [countLoop, ha, Option.bind_some, ih hq (by omega) (Nat.mod_lt _ (Nat.two_pow_pos 32)),
            Nat.mod_add_mod]
          congr 2
          omega

/-- `Traverse` applies `pfun` to the items in order. -/
theorem traverseLoop_eq (h : Chain heap p l) {fuel : ℕ} (hfuel : l.length < fuel)
    (applied : List Item) :
    traverseLoop heap fuel p applied = some (applied ++ l.map Prod.snd) := by
  induction l generalizing p fuel applied with
  | nil =>
      cases fuel with
      | zero => cases hfuel
      | succ fuel => rw [chain_nil.mp h, traverseLoop, List.map_nil, List.append_nil]
  | cons x l ih =>
      obtain ⟨a, v⟩ := x
      obtain ⟨rfl, q, ha, hq⟩ := h
      cases fuel with
      | zero => cases hfuel
      | succ fuel =>
          rw [List.length_cons] at hfuel
          rw [traverseLoop, ha, Option.bind_some, ih hq (by omega), List.map_cons]
          simp

/-- The loop of `AddItem` stops at the last node. -/
theorem scanLoop_eq {a t : ℕ} {v : Item} (h : Chain heap (some a) (l ++ [(t, v)])) {fuel : ℕ}
    (hfuel : l.length < fuel) : scanLoop heap fuel a = some t := by
  induction l generalizing a fuel with
  | nil =>
      obtain ⟨hat, q, ht, hq⟩ := h
      cases fuel with
      | zero => cases hfuel
      | succ fuel =>
          rw [Option.some.inj hat, scanLoop, ht, Option.bind_some, chain_nil.mp hq]
  | cons x l ih =>
      obtain ⟨b, u⟩ := x
      obtain ⟨hab, q, hb, hq⟩ := h
      cases fuel with
      | zero => cases hfuel
      | succ fuel =>
          rw [List.length_cons] at hfuel
          -- a node comes after this one
          cases q with
          | none =>
              have hnil := hq.eq_none_iff.mp rfl
              exact absurd hnil (by simp)
          | some next =>
              rw [Option.some.inj hab, scanLoop, hb, Option.bind_some]
              exact ih hq (by omega)

/-- `EmptyTheList` frees the nodes in order, each once, and nothing else. -/
theorem emptyLoop_eq (h : Chain heap p l) (hnodup : (l.map Prod.fst).Nodup) {fuel : ℕ}
    (hfuel : l.length < fuel) (freed : List ℕ) :
    emptyLoop fuel heap p freed =
      some (fun a => if a ∈ l.map Prod.fst then none else heap a, freed ++ l.map Prod.fst) := by
  induction l generalizing heap p fuel freed with
  | nil =>
      cases fuel with
      | zero => cases hfuel
      | succ fuel =>
          rw [chain_nil.mp h]
          simp [emptyLoop]
  | cons x l ih =>
      obtain ⟨a, v⟩ := x
      obtain ⟨rfl, q, ha, hq⟩ := h
      rw [List.map_cons, List.nodup_cons] at hnodup
      cases fuel with
      | zero => cases hfuel
      | succ fuel =>
          rw [List.length_cons] at hfuel
          -- the rest of the list does not contain the node that is freed
          have hrest : Chain (Function.update heap a none) q l := by
            refine hq.congr ?_
            intro b hb
            have hba : b ≠ a := by
              rintro rfl
              exact hnodup.1 hb
            exact Function.update_of_ne hba _ _
          rw [emptyLoop, ha, Option.bind_some, ih hrest hnodup.2 (by omega)]
          congr 2
          · funext b
            by_cases hba : b = a
            · simp [hba]
            · rw [List.map_cons]
              simp only [List.mem_cons, hba, false_or, Function.update_of_ne hba]
          · simp

/-! ## §3. The calls that change the list. -/

/-- The nodes reached from `*plist` are those of `l`: they are allocated, all different, and
the last one ends the list. -/
structure Represents (s : ListVar Item) (l : List (ℕ × Item)) : Prop where
  chain : Chain s.heap s.plist l
  nodup : (l.map Prod.fst).Nodup

variable {s : ListVar Item}

/-- A node filled in by `AddItem`. -/
theorem fill_node (heap : Heap Item) (a : ℕ) (junk : Node Item) (item : Item) :
    ((copyToNode (Function.update heap a (some junk)) item a).bind fun heap =>
      setNext heap a none) = some (Function.update heap a (some ⟨item, none⟩)) := by
  simp [copyToNode, setNext]

/-- **`AddItem` with a new node** puts the item at the end. -/
theorem Represents.addItem (h : Represents s l) (item : Item) {a : ℕ} (junk : Node Item)
    (hfresh : s.heap a = none) :
    ∃ s', (∀ fuel ≥ l.length, addItem fuel s item (some (a, junk)) = some (s', true)) ∧
      Represents s' (l ++ [(a, item)]) := by
  have hnew : a ∉ l.map Prod.fst := fun ha => h.chain.allocated ha hfresh
  have hnodup : ((l ++ [(a, item)]).map Prod.fst).Nodup := by
    rw [List.map_append, List.map_singleton, ← List.concat_eq_append]
    exact List.Nodup.concat hnew h.nodup
  have hfill := fill_node s.heap a junk item
  obtain ⟨heap₁, hcopy, hnext⟩ := Option.bind_eq_some_iff.mp hfill
  rcases List.eq_nil_or_concat' l with rfl | ⟨l', ⟨t, v⟩, rfl⟩
  · -- the list is empty: the new node becomes its head
    have hhead : s.plist = none := chain_nil.mp h.chain
    refine ⟨⟨Function.update s.heap a (some ⟨item, none⟩), some a⟩, ?_,
      chain_singleton a item, hnodup⟩
    intro fuel _
    rw [CPrimer.addItem, hcopy, Option.bind_some, hnext, Option.bind_some, hhead]
  · -- the new node goes behind the last one
    have hold : Chain (Function.update s.heap a (some ⟨item, none⟩)) s.plist (l' ++ [(t, v)]) := by
      refine h.chain.congr ?_
      intro b hb
      have hba : b ≠ a := by
        rintro rfl
        exact hnew hb
      exact Function.update_of_ne hba _ _
    obtain ⟨head, hhead⟩ : ∃ head, s.plist = some head := by
      cases hp : s.plist with
      | none => exact absurd (h.chain.eq_none_iff.mp hp) (by simp)
      | some head => exact ⟨head, rfl⟩
    refine ⟨⟨Function.update (Function.update s.heap a (some ⟨item, none⟩)) t (some ⟨v, some a⟩),
      some head⟩, ?_, ?_, hnodup⟩
    · intro fuel hfuel
      rw [hhead] at hold
      rw [List.length_append, List.length_singleton] at hfuel
      rw [CPrimer.addItem, hcopy, Option.bind_some, hnext, Option.bind_some, hhead]
      simp only [scanLoop_eq hold hfuel, Option.bind_some, setNext, hold.last, Option.map_some]
    · rw [← hhead]
      exact h.chain.concat h.nodup hnew

/-- **`EmptyTheList`** frees the nodes of the list, each once, and nothing else. -/
theorem Represents.emptyTheList (h : Represents s l) :
    Returns s .emptyTheList
      ⟨fun a => if a ∈ l.map Prod.fst then none else s.heap a, none⟩ (.freed (l.map Prod.fst)) := by
  refine ⟨l.length + 1, ?_⟩
  intro fuel hfuel
  rw [ListCall.run, emptyLoop_eq h.chain h.nodup hfuel]
  rfl

/-! ## §4. Whole runs. -/

/-- A call returns one result. -/
theorem Returns.unique {c : ListCall Item} {s₁ s₂ : ListVar Item} {x y : Answer Item}
    (h : Returns s c s₁ x) (h' : Returns s c s₂ y) : s₁ = s₂ ∧ x = y := by
  obtain ⟨k, hk⟩ := h
  obtain ⟨k', hk'⟩ := h'
  have heq := (hk (max k k') (le_max_left k k')).symm.trans (hk' (max k k') (le_max_right k k'))
  simpa using heq

/-- What a call does to a list with the nodes `l`. -/
theorem Represents.call (h : Represents s l) (c : ListCall Item) (hfresh : c.Fresh s) :
    ∃ s' answer l', Returns s c s' answer ∧ Represents s' l' ∧
      l'.map Prod.snd = record (l.map Prod.snd) c answer := by
  cases c with
  | listIsEmpty => exact ⟨s, _, l, ⟨0, fun _ _ => rfl⟩, h, rfl⟩
  | listIsFull pt =>
      cases pt with
      | none => exact ⟨s, _, l, ⟨0, fun _ _ => rfl⟩, h, rfl⟩
      | some x =>
          obtain ⟨a, junk⟩ := x
          -- the node is gone again
          have hsame : (listIsFull s (some (a, junk))).1 = s := by
            have hnone : Function.update s.heap a none = s.heap := by
              rw [← show s.heap a = none from hfresh, Function.update_eq_self]
            simp only [listIsFull, Function.update_idem, hnone]
          refine ⟨s, .bool false, l, ⟨0, fun fuel _ => ?_⟩, h, rfl⟩
          rw [ListCall.run, hsame]
          rfl
  | listItemCount =>
      refine ⟨s, .count (l.length % 2 ^ 32), l, ⟨l.length + 1, fun fuel hfuel => ?_⟩, h, rfl⟩
      rw [ListCall.run, countLoop_eq h.chain hfuel (Nat.two_pow_pos 32), Nat.zero_add]
      rfl
  | addItem item pnew =>
      cases pnew with
      | none => exact ⟨s, .bool false, l, ⟨0, fun _ _ => rfl⟩, h, rfl⟩
      | some x =>
          obtain ⟨a, junk⟩ := x
          obtain ⟨s', hadd, h'⟩ := h.addItem item junk hfresh
          refine ⟨s', .bool true, l ++ [(a, item)], ⟨l.length, fun fuel hfuel => ?_⟩, h', ?_⟩
          · rw [ListCall.run, hadd fuel hfuel]
            rfl
          · simp [record]
  | traverse =>
      refine ⟨s, .applied (l.map Prod.snd), l, ⟨l.length + 1, fun fuel hfuel => ?_⟩, h, rfl⟩
      rw [ListCall.run, traverseLoop_eq h.chain hfuel]
      rfl
  | emptyTheList => exact ⟨_, _, [], h.emptyTheList, ⟨rfl, List.nodup_nil⟩, rfl⟩

/-- The history is what the list holds. -/
theorem Session.represents {s : Session Item} (h : (listSystem Item).Reachable s) :
    ∃ l, Represents s.var l ∧ l.map Prod.snd = s.items := by
  refine h.invariant (I := fun s => ∃ l, Represents s.var l ∧ l.map Prod.snd = s.items) ?_ ?_
  · rintro s ⟨var, rfl⟩
    exact ⟨[], ⟨rfl, List.nodup_nil⟩, rfl⟩
  · rintro s s' _ ⟨l, hl, hitems⟩ ⟨c, answer, hfresh, hret, hrecord⟩
    obtain ⟨t, answer', l', hret', hl', hitems'⟩ := hl.call c hfresh
    obtain ⟨rfl, rfl⟩ := hret.unique hret'
    exact ⟨l', hl', by rw [hitems', hitems, hrecord]⟩

/-- **The list after any sequence of calls**: the nodes reached from `*plist` are allocated,
all different and end in NULL, and their items are those added since the last
`EmptyTheList`, in order.  On such a list every call returns:
an `AddItem` without memory answers false and changes nothing, one with a new node answers
true; `ListIsEmpty`, `ListItemCount` and `Traverse` answer from the items; `EmptyTheList`
frees the nodes of the list, each once and nothing else, and leaves the empty list. -/
theorem list_calls {s : Session Item} (h : (listSystem Item).Reachable s) :
    ∃ l, Represents s.var l ∧ l.map Prod.snd = s.items ∧
      (∀ item, Returns s.var (.addItem item none) s.var (.bool false)) ∧
      (∀ item a junk, s.var.heap a = none → ∃ s',
        Returns s.var (.addItem item (some (a, junk))) s' (.bool true) ∧
          Represents s' (l ++ [(a, item)])) ∧
      Returns s.var .listIsEmpty s.var (.bool s.items.isEmpty) ∧
      Returns s.var .listItemCount s.var (.count (s.items.length % 2 ^ 32)) ∧
      Returns s.var .traverse s.var (.applied s.items) ∧
      Returns s.var .emptyTheList
        ⟨fun a => if a ∈ l.map Prod.fst then none else s.var.heap a, none⟩
        (.freed (l.map Prod.fst)) := by
  obtain ⟨l, hl, hitems⟩ := Session.represents h
  refine ⟨l, hl, hitems, fun item => ⟨0, fun _ _ => rfl⟩, ?_, ?_, ?_, ?_, hl.emptyTheList⟩
  · intro item a junk hfresh
    obtain ⟨s', hadd, hl'⟩ := hl.addItem item junk hfresh
    refine ⟨s', ⟨l.length, fun fuel hfuel => ?_⟩, hl'⟩
    rw [ListCall.run, hadd fuel hfuel]
    rfl
  · refine ⟨0, fun _ _ => ?_⟩
    have hempty : listIsEmpty s.var = s.items.isEmpty := by
      rw [← hitems, Bool.eq_iff_iff]
      simpa [listIsEmpty] using hl.chain.eq_none_iff
    rw [ListCall.run, hempty]
  · refine ⟨l.length + 1, fun fuel hfuel => ?_⟩
    rw [ListCall.run, countLoop_eq hl.chain hfuel (Nat.two_pow_pos 32), Nat.zero_add, ← hitems,
      List.length_map]
    rfl
  · refine ⟨l.length + 1, fun fuel hfuel => ?_⟩
    rw [ListCall.run, traverseLoop_eq hl.chain hfuel, hitems]
    rfl

/-- One more call of a run. -/
theorem Session.call {s : Session Item} (h : (listSystem Item).Reachable s) (c : ListCall Item)
    (answer : Answer Item) {var : ListVar Item} (hfresh : c.Fresh s.var)
    (hret : Returns s.var c var answer) :
    (listSystem Item).Reachable ⟨var, record s.items c answer⟩ :=
  h.tail ⟨c, answer, hfresh, hret, rfl⟩

/-- Three items in an otherwise empty heap; between the second and the third an `AddItem`
finds no memory.  The third has two nodes to go over. -/
theorem list_calls_three : ∃ s : Session ℕ, (listSystem ℕ).Reachable s ∧ s.items = [7, 8, 9] ∧
    Returns s.var .traverse s.var (.applied [7, 8, 9]) ∧
    Returns s.var .listItemCount s.var (.count 3) ∧
    Returns s.var (.addItem 10 none) s.var (.bool false) := by
  have h0 : (listSystem ℕ).Reachable ⟨⟨fun _ => none, none⟩, []⟩ :=
    System.Reachable.of_init ⟨⟨fun _ => none, none⟩, rfl⟩
  have h1 := Session.call h0 (.addItem 7 (some (3, ⟨0, some 8⟩))) (.bool true) rfl
    ⟨0, fun _ _ => rfl⟩
  have h2 := Session.call h1 (.addItem 8 (some (5, ⟨0, none⟩))) (.bool true) rfl
    ⟨1, fun fuel hfuel => by
      obtain ⟨k, rfl⟩ := Nat.exists_eq_add_of_le' hfuel
      rfl⟩
  have h3 := Session.call h2 (.addItem 10 none) (.bool false) trivial ⟨0, fun _ _ => rfl⟩
  have h4 := Session.call h3 (.addItem 9 (some (4, ⟨0, some 3⟩))) (.bool true) rfl
    ⟨2, fun fuel hfuel => by
      obtain ⟨k, rfl⟩ := Nat.exists_eq_add_of_le' hfuel
      rfl⟩
  obtain ⟨l, -, -, hfull, -, -, hcount, htraverse, -⟩ := list_calls h4
  exact ⟨_, h4, rfl, htraverse, hcount, hfull 10⟩

end ComputerScience.CPrimer
