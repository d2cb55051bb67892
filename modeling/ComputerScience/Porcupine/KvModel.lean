/-
  ComputerScience.Porcupine.KvModel
  ─────────────────────────────────
  **THE KEY/VALUE MODEL of the linearizability checker** (`models/kv.go`,
  `porcupine/model.go`).

  `KvModel` describes ONE key: its state is a string and `Partition` splits a
  history by key.  The checker then looks at each part alone.  The contract stated
  in `porcupine/model.go` — a history is linearizable iff each part is — is proved
  here against the map from keys to strings that the parts stand for.
-/
import Mathlib.Data.List.Sort
import Mathlib.Data.List.Lex
import ComputerScience.Lib.Linearizability
import ComputerScience.Lib.Word

namespace ComputerScience.Porcupine

open ComputerScience.Lib

/-! ## §1. Operations, models and the key/value model. -/

/-- A Go `string`: a sequence of bytes, compared bytewise. -/
abbrev GoString := List UInt8

/-- `porcupine.Operation`; `ret` is the field `Return`. -/
structure Operation (I O : Type) where
  clientId : Int
  input : I
  call : Int
  output : O
  ret : Int
  deriving DecidableEq, Repr

/-- `porcupine.Model`, the fields the checker runs. -/
structure Model (I O S : Type) where
  partition : List (Operation I O) → List (List (Operation I O))
  init : S
  step : S → I → O → Bool × S

/-- `op` is `0` for get, `1` for put, anything else for append. -/
structure KvInput where
  op : UInt8
  key : GoString
  value : GoString
  deriving DecidableEq, Repr

structure KvOutput where
  value : GoString
  deriving DecidableEq, Repr

abbrev KvOp := Operation KvInput KvOutput

/-- The order in which `range` visits the keys of a Go map: any order. -/
structure MapOrder where
  range : List GoString → List GoString
  perm : ∀ ks, (range ks).Perm ks

/-- `m[key] = append(m[key], v)` on a Go map kept as its list of entries. -/
def mapAppend (key : GoString) (v : KvOp) :
    List (GoString × List KvOp) → List (GoString × List KvOp)
  | [] => [(key, [v])]
  | (k, vs) :: m =>
      if k = key then (k, vs ++ [v]) :: m else (k, vs) :: mapAppend key v m

/-- `m[key]`, with the nil slice for an absent key. -/
def mapGet (m : List (GoString × List KvOp)) (key : GoString) : List KvOp :=
  (m.lookup key).getD []

/-- The map built by the first loop of `Partition`. -/
def buildMap (history : List KvOp) : List (GoString × List KvOp) :=
  history.foldl (fun m v => mapAppend v.input.key v m) []

/-- `sort.Strings`. -/
def sortStrings (keys : List GoString) : List GoString :=
  keys.insertionSort (· ≤ ·)

/-- `KvModel.Partition`. -/
def kvPartition (ord : MapOrder) (history : List KvOp) : List (List KvOp) :=
  let m := buildMap history
  let keys := sortStrings (ord.range (m.map Prod.fst))
  keys.map (mapGet m)

/-- `KvModel.Step`. -/
def kvStep (st : GoString) (inp : KvInput) (out : KvOutput) : Bool × GoString :=
  -- get: the output must be the current value
  if inp.op = 0 then (decide (out.value = st), st)
  -- put
  else if inp.op = 1 then (true, inp.value)
  -- append
  else (true, st ++ inp.value)

/-- `KvModel`. -/
def kvModel (ord : MapOrder) : Model KvInput KvOutput GoString where
  partition := kvPartition ord
  init := []
  step := kvStep

/-- A model accepts an operation when `Step` answers `true`. -/
def Model.accept {I O S : Type} (M : Model I O S) (s : S) (op : Operation I O) : Option S :=
  if (M.step s op.input op.output).1 then some (M.step s op.input op.output).2 else none

/-- A history is linearizable with respect to `Init` and `Step`. -/
def Model.LinearizableBy {I O S : Type} (M : Model I O S) (h : List (Operation I O)) : Prop :=
  Linearizable Operation.call Operation.ret M.accept M.init h

/-! ## §2. What the checker is for: one map from keys to strings. -/

/-- get/put/append on the whole store. -/
def storeStep (m : GoString → GoString) (op : KvOp) : Option (GoString → GoString) :=
  if op.input.op = 0 then
    if op.output.value = m op.input.key then some m else none
  else if op.input.op = 1 then
    some (Function.update m op.input.key op.input.value)
  else
    some (Function.update m op.input.key (m op.input.key ++ op.input.value))

/-- Linearizable with respect to the store that is `""` everywhere at first. -/
def StoreLinearizable (h : List KvOp) : Prop :=
  Linearizable Operation.call Operation.ret storeStep (fun _ => []) h

/-- The store is the keyed object of the per-key model. -/
theorem storeStep_eq_keyStep (ord : MapOrder) :
    storeStep = keyStep (fun op : KvOp => op.input.key) (kvModel ord).accept := by
  funext m op
  simp only [storeStep, keyStep, Model.accept, kvModel, kvStep]
  split
  · split <;> simp_all [Function.update_eq_self]
  · split <;> simp

/-! ## §3. `Partition` splits by key. -/

theorem lookup_mapAppend (key : GoString) (v : KvOp) (m : List (GoString × List KvOp))
    (k : GoString) :
    mapGet (mapAppend key v m) k = if key = k then mapGet m k ++ [v] else mapGet m k := by
  induction m with
  | nil =>
      by_cases h : key = k
      · simp [mapAppend, mapGet, h]
      · have : (k == key) = false := by simpa using Ne.symm h
        simp [mapAppend, mapGet, List.lookup_cons, h, this]
  | cons e m ih =>
      obtain ⟨k', vs⟩ := e
      unfold mapAppend
      split
      -- the entry that is appended to
      next hk' =>
        subst hk'
        by_cases h : k' = k
        · subst h
          simp [mapGet]
        · have : (k == k') = false := by simpa using Ne.symm h
          simp [mapGet, List.lookup_cons, h, this]
      -- another entry: the key is further down
      next hk' =>
        by_cases h : k = k'
        · subst h
          simp [mapGet, Ne.symm hk']
        · have hb : (k == k') = false := by simpa using h
          simp only [mapGet, List.lookup_cons, hb] at ih ⊢
          exact ih

theorem keys_mapAppend (key : GoString) (v : KvOp) (m : List (GoString × List KvOp)) :
    (mapAppend key v m).map Prod.fst
      = if key ∈ m.map Prod.fst then m.map Prod.fst else m.map Prod.fst ++ [key] := by
  induction m with
  | nil => simp [mapAppend]
  | cons e m ih =>
      obtain ⟨k', vs⟩ := e
      unfold mapAppend
      split
      next hk' => simp [hk']
      next hk' =>
        simp only [List.map_cons, ih, List.mem_cons, Ne.symm hk', false_or]
        split <;> simp

/-- The keys of the built map are distinct and are those of the history. -/
theorem keys_buildMap (history : List KvOp) :
    ((buildMap history).map Prod.fst).Nodup ∧
      ∀ k, k ∈ (buildMap history).map Prod.fst ↔ ∃ op ∈ history, op.input.key = k := by
  -- the loop appends operation by operation, so the induction is on the last one
  induction history using List.reverseRecOn with
  | nil => simp [buildMap]
  | append_singleton h op ih =>
      obtain ⟨hnd, hmem⟩ := ih
      have hfold : buildMap (h ++ [op]) = mapAppend op.input.key op (buildMap h) := by
        simp [buildMap]
      rw [hfold, keys_mapAppend]
      split
      -- a key seen before
      next hin =>
        refine ⟨hnd, fun k => ?_⟩
        rw [hmem] at hin
        obtain ⟨o, ho, hok⟩ := hin
        rw [hmem]
        constructor
        · rintro ⟨o', ho', rfl⟩
          exact ⟨o', by simp [ho'], rfl⟩
        · rintro ⟨o', ho', rfl⟩
          rcases List.mem_append.mp ho' with ho' | ho'
          · exact ⟨o', ho', rfl⟩
          · obtain rfl := List.mem_singleton.mp ho'
            exact ⟨o, ho, hok⟩
      -- a new key
      next hin =>
        refine ⟨List.nodup_append.mpr ⟨hnd, by simp, ?_⟩, fun k => ?_⟩
        · intro a ha b hb hab
          obtain rfl := List.mem_singleton.mp hb
          exact hin (hab ▸ ha)
        · rw [List.mem_append, hmem]
          constructor
          · rintro (⟨o, ho, rfl⟩ | hk)
            · exact ⟨o, by simp [ho], rfl⟩
            · exact ⟨op, by simp, (List.mem_singleton.mp hk).symm⟩
          · rintro ⟨o, ho, rfl⟩
            rcases List.mem_append.mp ho with ho | ho
            · exact Or.inl ⟨o, ho, rfl⟩
            · obtain rfl := List.mem_singleton.mp ho
              exact Or.inr (by simp)

/-- The slice kept for a key is the sub-history of that key. -/
theorem mapGet_buildMap (history : List KvOp) (k : GoString) :
    mapGet (buildMap history) k = ofKey (fun op : KvOp => op.input.key) k history := by
  induction history using List.reverseRecOn with
  | nil => rfl
  | append_singleton h op ih =>
      have hfold : buildMap (h ++ [op]) = mapAppend op.input.key op (buildMap h) := by
        simp [buildMap]
      rw [hfold, lookup_mapAppend, ih]
      split <;> simp_all [ofKey]

/-- **`Partition` in one line**: the sub-histories of a duplicate-free list of all
keys. -/
theorem kvPartition_eq (ord : MapOrder) (history : List KvOp) :
    ∃ keys : List GoString, keys.Nodup ∧
      (∀ k, k ∈ keys ↔ ∃ op ∈ history, op.input.key = k) ∧
      kvPartition ord history
        = keys.map (fun k => ofKey (fun op : KvOp => op.input.key) k history) := by
  obtain ⟨hnd, hmem⟩ := keys_buildMap history
  have hperm : (sortStrings (ord.range ((buildMap history).map Prod.fst))).Perm
      ((buildMap history).map Prod.fst) :=
    (List.perm_insertionSort _ _).trans (ord.perm _)
  refine ⟨_, hperm.nodup_iff.mpr hnd, fun k => by rw [hperm.mem_iff, hmem], ?_⟩
  simp only [kvPartition]
  exact List.map_congr_left fun k _ => mapGet_buildMap history k

/-- Sub-histories of a duplicate-free list of keys that covers the history put
together are the history. -/
theorem flatten_ofKey_perm {K : Type} [DecidableEq K] (key : KvOp → K) :
    ∀ (ks : List K) (h : List KvOp), ks.Nodup → (∀ op ∈ h, key op ∈ ks) →
      (ks.map (fun k => ofKey key k h)).flatten.Perm h := by
  intro ks
  induction ks with
  | nil =>
      intro h _ hcov
      cases h with
      | nil => simp
      | cons op h => simpa using hcov op List.mem_cons_self
  | cons k ks ih =>
      intro h hnd hcov
      obtain ⟨hk, hnd'⟩ := List.nodup_cons.mp hnd
      -- take the operations of `k` out; the other keys do not see the difference
      let rest := h.filter (fun op => !decide (key op = k))
      have hrest : ks.map (fun k' => ofKey key k' h) = ks.map (fun k' => ofKey key k' rest) := by
        refine List.map_congr_left fun k' hk' => ?_
        have hne : k' ≠ k := fun e => hk (e ▸ hk')
        simp only [ofKey, rest, List.filter_filter]
        refine List.filter_congr fun op _ => ?_
        by_cases h' : key op = k'
        · simp [h', hne]
        · simp [h']
      simp only [List.map_cons, List.flatten_cons, hrest]
      have := ih rest hnd' fun op hop => by
        obtain ⟨hop, hne⟩ := List.mem_filter.mp hop
        have := hcov op hop
        simp at hne this
        tauto
      exact (this.append_left _).trans (List.filter_append_perm _ _)

/-! ## §4. The contract of `Partition`. -/

/-- **A history is linearizable iff each of its partitions is, and the partitions
hold every operation exactly once.** -/
theorem kvModel_partition_linearizable_iff (ord : MapOrder) (history : List KvOp)
    (hcr : ∀ op ∈ history, op.call ≤ op.ret) :
    (StoreLinearizable history ↔
      ∀ part ∈ (kvModel ord).partition history, (kvModel ord).LinearizableBy part) ∧
    ((kvModel ord).partition history).flatten.Perm history := by
  obtain ⟨keys, hnd, hmem, hpart⟩ := kvPartition_eq ord history
  have hpart' : (kvModel ord).partition history
      = keys.map (fun k => ofKey (fun op : KvOp => op.input.key) k history) := hpart
  refine ⟨?_, ?_⟩
  · -- locality of linearizability, with the keys as objects
    rw [StoreLinearizable, storeStep_eq_keyStep ord,
      linearizable_keyed_iff _ _ _ (kvModel ord).accept _ _ hcr, hpart']
    constructor
    · intro hall part hp
      obtain ⟨k, _, rfl⟩ := List.mem_map.mp hp
      exact hall k
    · intro hall k
      by_cases hk : k ∈ keys
      · exact hall _ (List.mem_map_of_mem hk)
      · -- a key that does not occur has the empty, trivially linearizable, history
        have hnil : ofKey (fun op : KvOp => op.input.key) k history = [] := by
          rw [ofKey, List.filter_eq_nil_iff]
          intro op hop hkey
          exact hk ((hmem k).mpr ⟨op, hop, by simpa using hkey⟩)
        rw [hnil]
        exact ⟨[], List.Perm.refl _, List.Pairwise.nil, trivial⟩
  · rw [hpart']
    exact flatten_ofKey_perm _ keys history hnd fun op hop => (hmem _).mpr ⟨op, hop, rfl⟩

/-- Keys `a` and `b` interleaved: `put(a,x)`, a concurrent `get(b)`, then
`append(a,y)` and `get(a) -> xy`. -/
def twoKeyHistory : List KvOp :=
  [⟨0, ⟨1, [97], [120]⟩, 0, ⟨[]⟩, 3⟩, ⟨1, ⟨0, [98], []⟩, 1, ⟨[]⟩, 2⟩,
   ⟨0, ⟨2, [97], [121]⟩, 4, ⟨[]⟩, 5⟩, ⟨1, ⟨0, [97], []⟩, 6, ⟨[120, 121]⟩, 7⟩]

/-- `range` visiting the keys in the order of insertion. -/
def insertionOrder : MapOrder := ⟨id, fun _ => List.Perm.refl _⟩

theorem twoKeyHistory_partition_linearizable_iff :
    (∀ part ∈ (kvModel insertionOrder).partition twoKeyHistory,
      (kvModel insertionOrder).LinearizableBy part) ∧
    ((kvModel insertionOrder).partition twoKeyHistory).flatten.Perm twoKeyHistory := by
  have hstore : StoreLinearizable twoKeyHistory := by
    refine ⟨twoKeyHistory, .refl _, by unfold Respects; decide, ?_⟩
    exact ⟨_, rfl, _, rfl, _, rfl, _, rfl, trivial⟩
  have h := kvModel_partition_linearizable_iff insertionOrder twoKeyHistory (by decide)
  exact ⟨h.1.mp hstore, h.2⟩

end ComputerScience.Porcupine
