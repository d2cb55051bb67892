/-
  ComputerScience.Porcupine.Checker
  ─────────────────────────────────
  **THE LINEARIZABILITY CHECKER** (`porcupine/checker.go`): entries, the linked list of
  entries, and the search of `checkSingle`.

  The list of entries is a doubly linked list in a heap.  `checkSingle` walks over it from the
  front: a call entry is linearized next if the model accepts it there and the resulting
  configuration is new; then call and return are lifted out of the list and the walk starts
  again.  At a return entry no further operation can come next, and the last choice is undone.

  `none` stands for a panic: a null pointer that is followed, an index behind a slice, a value
  of the wrong dynamic type in `Step`.
-/
import ComputerScience.Lib.Dancing
import ComputerScience.Lib.While
import ComputerScience.Porcupine.Bitset
import ComputerScience.Porcupine.KvModel

namespace ComputerScience.Porcupine

open ComputerScience.Lib

variable {I O S : Type}

/-! ## §1. Models. -/

/-- `porcupine.Event`; `CallEvent` and `ReturnEvent` are the two kinds. -/
inductive EventKind
  | callEvent
  | returnEvent
  deriving DecidableEq, Repr

/-- `interface{}`, as far as the checker sees it: an input or an output. -/
inductive Value (I O : Type)
  | input (i : I)
  | output (o : O)
  deriving DecidableEq, Repr

structure Event (I O : Type) where
  clientId : ℤ
  kind : EventKind
  value : Value I O
  id : ℤ
  deriving DecidableEq, Repr

/-- `porcupine.Model` as the user writes it: some fields may be `nil`. -/
structure UserModel (I O S : Type) where
  partition : Option (List (Operation I O) → List (List (Operation I O)))
  partitionEvent : Option (List (Event I O) → List (List (Event I O)))
  init : S
  step : S → I → O → Bool × S
  equal : Option (S → S → Bool)

/-- `porcupine.Model` with all the fields that the checker uses. -/
structure CheckModel (I O S : Type) extends Model I O S where
  partitionEvent : List (Event I O) → List (List (Event I O))
  equal : S → S → Bool

/-- `NoPartition` -/
def noPartition (history : List (Operation I O)) : List (List (Operation I O)) := [history]

/-- `NoPartitionEvent` -/
def noPartitionEvent (history : List (Event I O)) : List (List (Event I O)) := [history]

/-- `ShallowEqual` -/
def shallowEqual [DecidableEq S] (state1 state2 : S) : Bool := decide (state1 = state2)

/-- `fillDefault(model)` -/
def fillDefault [DecidableEq S] (model : UserModel I O S) : CheckModel I O S where
  partition := model.partition.getD noPartition
  init := model.init
  step := model.step
  partitionEvent := model.partitionEvent.getD noPartitionEvent
  equal := model.equal.getD shallowEqual

/-- `model.Step(state, input, output)` on values of any dynamic type. -/
def Model.stepAny (M : Model I O S) (state : S) : Value I O → Value I O → Option (Bool × S)
  | .input i, .output o => some (M.step state i o)
  | _, _ => none

/-! ## §2. Entries. -/

inductive EntryKind
  | callEntry
  | returnEntry
  deriving DecidableEq, Repr

/-- `entry` -/
structure Entry (I O : Type) where
  kind : EntryKind
  value : Value I O
  id : ℕ
  time : ℤ
  clientId : ℤ
  deriving DecidableEq, Repr

/-- `byTime.Less`: calls before returns if the times are the same. -/
def Entry.less (a b : Entry I O) : Bool :=
  if a.time ≠ b.time then decide (a.time < b.time)
  else decide (a.kind = .callEntry ∧ b.kind = .returnEntry)

/-- `sort.Sort(byTime(entries))`, which need not be stable: any permutation in which no entry
is less than an earlier one. -/
structure EntrySort (I O : Type) where
  sort : List (Entry I O) → List (Entry I O)
  perm : ∀ es, (sort es).Perm es
  sorted : ∀ es, (sort es).Pairwise fun a b => b.less a = false

/-- The loop of `makeEntries`: a call and a return entry for each operation, numbered from
`id`. -/
def appendEntries : ℕ → List (Operation I O) → List (Entry I O)
  | _, [] => []
  | id, elem :: history =>
      ⟨.callEntry, .input elem.input, id, elem.call, elem.clientId⟩ ::
      ⟨.returnEntry, .output elem.output, id, elem.ret, elem.clientId⟩ ::
      appendEntries (id + 1) history

/-- `makeEntries(history)` -/
def makeEntries (srt : EntrySort I O) (history : List (Operation I O)) : List (Entry I O) :=
  srt.sort (appendEntries 0 history)

/-! ## §3. The linked list of entries. -/

/-- The fields of a `node` beside its links; `matching` is the field `match`, which is `nil`
in a return entry. -/
structure NodeVal (I O : Type) where
  value : Option (Value I O)
  matching : Option ℕ
  id : ℤ
  deriving DecidableEq, Repr

abbrev NodeHeap (I O : Type) := DHeap (NodeVal I O)

/-- `insertBefore(n, mark)` -/
def insertBefore (h : NodeHeap I O) (n : ℕ) (mark : Option ℕ) : Option (NodeHeap I O) :=
  match mark with
  | none => some h
  | some m => do
      let beforeMark ← h.prev m
      let h ← h.setPrev (some m) (some n)
      let h ← h.setNext (some n) (some m)
      if beforeMark = none then some h
      else do
        let h ← h.setPrev (some n) beforeMark
        h.setNext beforeMark (some n)

/-- `length(n)`, for a list of fewer than `fuel` nodes; `l` is the count so far. -/
def lengthFrom (h : NodeHeap I O) : ℕ → Option ℕ → ℕ → Option ℕ
  | 0, _, _ => none
  | _ + 1, none, l => some l
  | fuel + 1, some n, l => do lengthFrom h fuel (← h.next n) (l + 1)

/-- The variables of `makeLinkedEntries`; `fresh` is the next address to be allocated and
`mates` the map `match`. -/
structure Linking (I O : Type) where
  heap : NodeHeap I O
  fresh : ℕ
  root : Option ℕ
  mates : ℕ → Option ℕ

/-- The body of the loop of `makeLinkedEntries`. -/
def linkEntry (elem : Entry I O) (st : Linking I O) : Option (Linking I O) :=
  match elem.kind with
  | .returnEntry => do
      let entry : DNode (NodeVal I O) := ⟨⟨some elem.value, none, elem.id⟩, none, none⟩
      let heap ← insertBefore (Function.update st.heap st.fresh (some entry)) st.fresh st.root
      some ⟨heap, st.fresh + 1, some st.fresh, Function.update st.mates elem.id (some st.fresh)⟩
  | .callEntry => do
      let entry : DNode (NodeVal I O) :=
        ⟨⟨some elem.value, st.mates elem.id, elem.id⟩, none, none⟩
      let heap ← insertBefore (Function.update st.heap st.fresh (some entry)) st.fresh st.root
      some ⟨heap, st.fresh + 1, some st.fresh, st.mates⟩

/-- `makeLinkedEntries(entries)`: the loop starts at the last entry. -/
def makeLinkedEntries : List (Entry I O) → Option (Linking I O)
  | [] => some ⟨fun _ => none, 0, none, fun _ => none⟩
  | elem :: entries => do linkEntry elem (← makeLinkedEntries entries)

/-- `lift(entry)`: the call and the return entry are taken out of the list. -/
def lift (h : NodeHeap I O) (entry : ℕ) : Option (NodeHeap I O) := do
  let h ← h.unlink entry
  let mate ← (← h entry).val.matching
  h.unlinkLast mate

/-- `unlift(entry)` -/
def unlift (h : NodeHeap I O) (entry : ℕ) : Option (NodeHeap I O) := do
  let mate ← (← h entry).val.matching
  let h ← h.relinkLast mate
  h.relink entry

/-! ## §4. The search. -/

/-- `cacheContains(model, cache, entry)`; the cache maps a hash to the entries that have it. -/
def cacheContains (M : CheckModel I O S) (cache : UInt64 → List (Bitset × S))
    (entry : Bitset × S) : Bool :=
  (cache entry.1.hash).any fun elem => entry.1.equals elem.1 && M.equal entry.2 elem.2

/-- `longest`: for each operation a pointer to a slice, given as the address of the slice
(they are told apart by it in `checkParallel`) with its contents, which never change. -/
abbrev Longest := List (Option (ℕ × List ℕ))

/-- The variables of `checkSingle`; `seqs` is the address of the next slice `seq`. -/
structure Checker (I O S : Type) where
  heap : NodeHeap I O
  headEntry : ℕ
  entry : Option ℕ
  state : S
  linearized : Bitset
  calls : List (ℕ × S)
  cache : UInt64 → List (Bitset × S)
  longest : Longest
  seqs : ℕ

/-- `seq[i] = v.entry.id` for the entries of `calls`. -/
def callIds (h : NodeHeap I O) (calls : List (ℕ × S)) : Option (List ℕ) :=
  calls.mapM fun v => (h v.1).map fun n => n.val.id.toNat

/-- The loop over `calls` that keeps the longest linearization for each operation in it. -/
def updateLongest (addr : ℕ) (seq : List ℕ) : List ℕ → Longest → Option Longest
  | [], longest => some longest
  | id :: ids, longest => do
      let old ← longest[id]?
      if old.all fun l => decide (seq.length > l.2.length) then
        updateLongest addr seq ids (longest.set id (some (addr, seq)))
      else updateLongest addr seq ids longest

/-- The turn of the loop of `checkSingle`, from the test of the loop on; `kill` is what
`atomic.LoadInt32(kill)` reads. -/
def checkBody (M : CheckModel I O S) (computePartial kill : Bool) (c : Checker I O S) :
    Option (Checker I O S ⊕ (Bool × Longest)) := do
  if (← c.heap.next c.headEntry) = none then
    let seq ← callIds c.heap c.calls
    some (.inr (true, List.replicate c.longest.length (some (c.seqs, seq))))
  else if kill then some (.inr (false, c.longest))
  else do
    let entry ← c.entry
    let node ← c.heap entry
    match node.val.matching with
    | some mate => do
        let (ok, newState) ←
          M.stepAny c.state (← node.val.value) (← (← c.heap mate).val.value)
        if ok then do
          let newLinearized ← c.linearized.set node.val.id.toNat
          if !cacheContains M c.cache (newLinearized, newState) then do
            let hash := newLinearized.hash
            let heap ← lift c.heap entry
            some (.inl { c with
              cache := Function.update c.cache hash (c.cache hash ++ [(newLinearized, newState)])
              calls := c.calls ++ [(entry, c.state)]
              state := newState
              linearized := ← c.linearized.set node.val.id.toNat
              heap := heap
              entry := ← heap.next c.headEntry })
          else some (.inl { c with entry := node.next })
        else some (.inl { c with entry := node.next })
    | none =>
        match c.calls.getLast? with
        | none => some (.inr (false, c.longest))
        | some (entry, state) => do
            let longest ←
              if computePartial then do
                let seq ← callIds c.heap c.calls
                updateLongest c.seqs seq seq c.longest
              else some c.longest
            let linearized ← c.linearized.clear (← c.heap entry).val.id.toNat
            let heap ← unlift c.heap entry
            some (.inl { c with
              longest := longest
              seqs := c.seqs + 1
              state := state
              linearized := linearized
              calls := c.calls.dropLast
              heap := heap
              entry := ← heap.next entry })

/-- A turn that panics ends the search. -/
def checkTurn (M : CheckModel I O S) (computePartial kill : Bool) (c : Checker I O S) :
    Checker I O S ⊕ Option (Bool × Longest) :=
  match checkBody M computePartial kill c with
  | none => .inr none
  | some (.inl c) => .inl c
  | some (.inr r) => .inr (some r)

/-- `checkSingle` before its loop. -/
def checkStart (M : CheckModel I O S) (history : List (Entry I O)) : Option (Checker I O S) := do
  let st ← makeLinkedEntries history
  let n := (← lengthFrom st.heap (st.fresh + 1) st.root 0) / 2
  let headEntry : DNode (NodeVal I O) := ⟨⟨none, none, -1⟩, none, none⟩
  let heap ← insertBefore (Function.update st.heap st.fresh (some headEntry)) st.fresh st.root
  some ⟨heap, st.fresh, st.root, M.init, newBitset n, [], fun _ => [], List.replicate n none, 0⟩

/-- `checkSingle(model, history, computePartial, kill)` with nobody setting `kill`.  The inner
`none` is a panic, the outer one says that the fuel was not enough. -/
def checkSingle (M : CheckModel I O S) (history : List (Entry I O)) (computePartial : Bool)
    (fuel : ℕ) : Option (Option (Bool × Longest)) :=
  match checkStart M history with
  | none => some none
  | some c => loopExit (checkTurn M computePartial false) fuel c

end ComputerScience.Porcupine
