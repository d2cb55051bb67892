/-
  ComputerScience.Labgob.CheckType
  ────────────────────────────────
  **THE TYPE WALK OF LABGOB** (`src/labgob/labgob.go`).

  `checkType` goes through a type and everything it refers to, and warns about every field
  whose name does not start with an upper-case letter.  Types refer to each other in cycles,
  and the table `checked`, which outlives the calls, ends the recursion.

    • `checkType_ran` — a call is a depth-first walk, and needs no more nested calls than
      there are unchecked types, and one,
    • `checkTypes_ran` — so is a sequence of calls,
    • `checkTypes_spec` — from an empty table, one line is printed for each lower-case field
      of a type that can be reached, in whatever order the types are passed,
    • `checkTypes_reachable` — and `checked` is what can be reached, and `errorCount` grows
      by the lower-case fields there.

  A type is a name for what `reflect` says about it.  What an upper-case letter is,
  `unicode.IsUpper`, is a parameter.  The calls are made one after the other: `mu` is left out.
-/
import ComputerScience.Lib.Dfs
import ComputerScience.Lib.Utf8
import Mathlib.Data.Fintype.Card
import Mathlib.Tactic.Abel

namespace ComputerScience.Labgob

open ComputerScience.Lib

/-! ## §1. Types and the state. -/

/-- `reflect.StructField` -/
structure StructField (τ : Type*) where
  Name : List UInt8
  Typ : τ
deriving DecidableEq

/-- `t.Kind()`, with the types that `t.Field`, `t.Elem` and `t.Key` give for this kind. -/
inductive Kind (τ : Type*)
  | Struct (fields : List (StructField τ))
  | Slice (elem : τ)
  | Array (elem : τ)
  | Ptr (elem : τ)
  | Map (key elem : τ)
  | other
deriving DecidableEq

/-- The types of a program. -/
structure Types (τ : Type*) where
  kind : τ → Kind τ
  Name : τ → List UInt8

/-- The variables of the package, and what was printed so far, line by line.  `checked` is
`none` for the nil map. -/
structure St (τ : Type*) where
  checked : Option (Finset τ)
  errorCount : ℕ
  out : List (List UInt8)
deriving DecidableEq

/-- The types in the map; a nil map reads as empty. -/
def St.table {τ : Type*} (s : St τ) : Finset τ := s.checked.getD ∅

section

variable {τ : Type*} [DecidableEq τ] (isUpper : ℕ → Bool) (G : Types τ)

/-! ## §2. The walk. -/

/-- `if checked == nil { checked = map[reflect.Type]bool{} }` -/
def St.make (s : St τ) : St τ := { s with checked := some s.table }

/-- `checked[t] = true` -/
def St.mark (s : St τ) (t : τ) : St τ := { s with checked := some (insert t s.table) }

/-- The text of the warning. -/
def warning (field typ : List UInt8) : List UInt8 :=
  "labgob error: lower-case field ".toUTF8.toList ++ field ++ " of ".toUTF8.toList ++ typ ++
    " in RPC or persist/snapshot will break your Raft\n".toUTF8.toList

/-- `unicode.IsUpper(rune) == false`, for the first code point of the name. -/
def lowerCase (f : StructField τ) : Bool := isUpper (decodeRune f.Name).1 == false

/-- The turn of the loop over the fields of `t`, before the nested call. -/
def checkField (t : τ) (f : StructField τ) (s : St τ) : St τ :=
  if lowerCase isUpper f then
    { s with out := s.out ++ [warning f.Name (G.Name t)], errorCount := s.errorCount + 1 }
  else s

/-- The loop over the fields of `t`; `call` is the nested call. -/
def checkFields (call : τ → St τ → Option (St τ)) (t : τ) :
    List (StructField τ) → St τ → Option (St τ)
  | [], s => some s
  | f :: fs, s => (call f.Typ (checkField isUpper G t f s)).bind (checkFields call t fs)

/-- `switch k { ... }`; `call` is the nested call. -/
def checkParts (call : τ → St τ → Option (St τ)) (t : τ) (s : St τ) : Option (St τ) :=
  match G.kind t with
  | .Struct fields => checkFields isUpper G call t fields s
  | .Slice elem => call elem s
  | .Array elem => call elem s
  | .Ptr elem => call elem s
  | .Map key elem => (call elem s).bind (call key)
  | .other => some s

/-- `checkType(t)`, with at most `fuel` calls inside each other. -/
def checkType : ℕ → τ → St τ → Option (St τ)
  | 0, _, _ => none
  | fuel + 1, t, s =>
      let s := s.make
      if t ∈ s.table then some s
      else checkParts isUpper G (checkType fuel) t (s.mark t)

/-- A sequence of calls of `checkType`. -/
def checkTypes (fuel : ℕ) : List τ → St τ → Option (St τ)
  | [], s => some s
  | t :: ts, s => (checkType isUpper G fuel t s).bind (checkTypes fuel ts)

/-! ## §3. What the walk is for. -/

/-- The types that `t` refers to, in the order of the walk. -/
def Types.parts (t : τ) : List τ :=
  match G.kind t with
  | .Struct fields => fields.map StructField.Typ
  | .Slice elem => [elem]
  | .Array elem => [elem]
  | .Ptr elem => [elem]
  | .Map key elem => [elem, key]
  | .other => []

/-- The lower-case fields of `t`, if it is a struct type. -/
def Types.lowerFields (t : τ) : List (StructField τ) :=
  match G.kind t with
  | .Struct fields => fields.filter (lowerCase isUpper)
  | _ => []

/-- The warnings for the fields `fs` of `t`. -/
def Types.warnings (t : τ) (fs : List (StructField τ)) : List (List UInt8) :=
  fs.map (fun f => warning f.Name (G.Name t))

open Classical in
/-- The types that can be reached from `ts` through fields, elements and keys. -/
noncomputable def Types.reachable [Fintype τ] (ts : List τ) : Finset τ :=
  Finset.univ.filter (fun u => ∃ t ∈ ts, Reaches G.parts t u)

omit [DecidableEq τ] in
theorem mem_reachable [Fintype τ] (ts : List τ) (u : τ) :
    u ∈ G.reachable ts ↔ ∃ t ∈ ts, Reaches G.parts t u := by
  simp [Types.reachable]

/-- What a part of the walk does: it goes through `ts`, prints `lines` for fields of the type
it stands at and the warnings of every type it marks, and counts every line it prints. -/
def Ran (ts : List τ) (lines : List (List UInt8)) (s s' : St τ) : Prop :=
  ∃ new, Walk G.parts s.table ts new s'.table ∧
    (s'.out : Multiset (List UInt8)) = s.out + lines +
      (new.map (fun u => (G.warnings u (G.lowerFields isUpper u) : Multiset (List UInt8)))).sum ∧
    s'.errorCount + s.out.length = s.errorCount + s'.out.length

variable {isUpper G}

/-- A part of the walk that does nothing. -/
theorem Ran.refl (s : St τ) : Ran isUpper G [] [] s s :=
  ⟨[], Walk.done _, by simp, rfl⟩

/-- **Two parts of the walk**, one after the other. -/
theorem Ran.append {ts ts' : List τ} {lines lines' : List (List UInt8)} {s s' s'' : St τ}
    (h : Ran isUpper G ts lines s s') (h' : Ran isUpper G ts' lines' s' s'') :
    Ran isUpper G (ts ++ ts') (lines ++ lines') s s'' := by
  obtain ⟨new, hwalk, hout, hcount⟩ := h
  obtain ⟨new', hwalk', hout', hcount'⟩ := h'
  refine ⟨new ++ new', hwalk.append hwalk', ?_, by omega⟩
  rw [hout', hout, List.map_append, List.sum_append, ← Multiset.coe_add lines]
  abel

/-- A type that is in the table is passed over. -/
theorem Ran.seen {s : St τ} {t : τ} (ht : t ∈ s.table) : Ran isUpper G [t] [] s s.make :=
  ⟨[], Walk.seen ht (Walk.done _), by simp [St.make], rfl⟩

/-- **A type that is not in the table is marked**, and its parts are gone through. -/
theorem Ran.mark {s s' : St τ} {t : τ} (ht : t ∉ s.table)
    (h : Ran isUpper G (G.parts t) (G.warnings t (G.lowerFields isUpper t)) (s.make.mark t) s') :
    Ran isUpper G [t] [] s s' := by
  obtain ⟨new, hwalk, hout, hcount⟩ := h
  refine ⟨t :: (new ++ []), Walk.mark ht hwalk (Walk.done _), ?_, hcount⟩
  rw [hout, List.append_nil, List.map_cons, List.sum_cons]
  show (s.out : Multiset (List UInt8)) + _ + _ = s.out + ([] : List (List UInt8)) + _
  rw [Multiset.coe_nil, add_zero, add_assoc]

/-- The turn of the loop over the fields, before the nested call. -/
theorem checkField_ran (t : τ) (f : StructField τ) (s : St τ) :
    Ran isUpper G [] (G.warnings t ([f].filter (lowerCase isUpper))) s
      (checkField isUpper G t f s) := by
  unfold checkField
  by_cases hf : lowerCase isUpper f = true
  · rw [if_pos hf, List.filter_cons_of_pos hf]
    refine ⟨[], Walk.done _, ?_, ?_⟩
    · show ((s.out ++ [warning f.Name (G.Name t)] : List _) : Multiset (List UInt8)) = _
      rw [← Multiset.coe_add]
      simp [Types.warnings]
    · show s.errorCount + 1 + s.out.length = s.errorCount + (s.out ++ [_]).length
      rw [List.length_append, List.length_singleton]
      omega
  · rw [if_neg hf, List.filter_cons_of_neg hf]
    exact Ran.refl s

/-! ## §4. A call. -/

section

variable [Fintype τ]

/-- The number of types that are not in the table. -/
def St.unchecked (s : St τ) : ℕ := s.tableᶜ.card

theorem unchecked_mark {s : St τ} {t : τ} (ht : t ∉ s.table) :
    (s.make.mark t).unchecked < s.unchecked := by
  apply Finset.card_lt_card
  show (insert t s.table)ᶜ ⊂ s.tableᶜ
  exact compl_lt_compl_iff_lt.mpr (Finset.ssubset_insert ht)

theorem Ran.unchecked_le {ts : List τ} {lines : List (List UInt8)} {s s' : St τ}
    (h : Ran isUpper G ts lines s s') : s'.unchecked ≤ s.unchecked := by
  obtain ⟨new, hwalk, -, -⟩ := h
  exact Finset.card_le_card (compl_le_compl hwalk.subset)

/-- `call` is right as long as there are fewer than `fuel` types to check. -/
def CallOk (isUpper : ℕ → Bool) (G : Types τ) (fuel : ℕ) (call : τ → St τ → Option (St τ)) :
    Prop :=
  ∀ t s, s.unchecked < fuel → ∃ s', call t s = some s' ∧ Ran isUpper G [t] [] s s'

/-- **The loop over the fields**: the call for each of them finds the table that the calls
before it left. -/
theorem checkFields_ran {fuel : ℕ} {call : τ → St τ → Option (St τ)}
    (hcall : CallOk isUpper G fuel call) (t : τ) (fs : List (StructField τ)) (s : St τ)
    (hs : s.unchecked < fuel) :
    ∃ s', checkFields isUpper G call t fs s = some s' ∧
      Ran isUpper G (fs.map StructField.Typ) (G.warnings t (fs.filter (lowerCase isUpper))) s
        s' := by
  induction fs generalizing s with
  | nil => exact ⟨s, rfl, Ran.refl s⟩
  | cons f fs ih =>
      have hfield : Ran isUpper G [] _ s _ := checkField_ran t f s
      obtain ⟨s₁, hs₁, hran₁⟩ := hcall f.Typ _ (Nat.lt_of_le_of_lt hfield.unchecked_le hs)
      have hturn := hfield.append hran₁
      obtain ⟨s₂, hs₂, hran₂⟩ := ih s₁ (Nat.lt_of_le_of_lt hturn.unchecked_le hs)
      refine ⟨s₂, ?_, ?_⟩
      · show (call f.Typ (checkField isUpper G t f s)).bind _ = some s₂
        rw [hs₁]
        exact hs₂
      · have hall := hturn.append hran₂
        rw [List.append_nil] at hall
        have hlines : G.warnings t ((f :: fs).filter (lowerCase isUpper)) =
            G.warnings t ([f].filter (lowerCase isUpper)) ++
              G.warnings t (fs.filter (lowerCase isUpper)) := by
          unfold Types.warnings
          rw [← List.map_append, ← List.filter_append, List.singleton_append]
        rw [hlines]
        exact hall

/-- **The switch** goes through the parts of `t`. -/
theorem checkParts_ran {fuel : ℕ} {call : τ → St τ → Option (St τ)}
    (hcall : CallOk isUpper G fuel call) (t : τ) (s : St τ) (hs : s.unchecked < fuel) :
    ∃ s', checkParts isUpper G call t s = some s' ∧
      Ran isUpper G (G.parts t) (G.warnings t (G.lowerFields isUpper t)) s s' := by
  unfold checkParts Types.parts Types.lowerFields
  cases G.kind t with
  | Struct fields => exact checkFields_ran hcall t fields s hs
  | Slice elem => exact hcall elem s hs
  | Array elem => exact hcall elem s hs
  | Ptr elem => exact hcall elem s hs
  | Map key elem =>
      obtain ⟨s₁, hs₁, hran₁⟩ := hcall elem s hs
      obtain ⟨s₂, hs₂, hran₂⟩ := hcall key s₁ (Nat.lt_of_le_of_lt hran₁.unchecked_le hs)
      refine ⟨s₂, ?_, hran₁.append hran₂⟩
      show (call elem s).bind (call key) = some s₂
      rw [hs₁]
      exact hs₂
  | other => exact ⟨s, rfl, Ran.refl s⟩

/-- **A call of `checkType` returns**, and is a walk: a nested call finds one unchecked type
less. -/
theorem checkType_ran (fuel : ℕ) : CallOk isUpper G fuel (checkType isUpper G fuel) := by
  induction fuel with
  | zero =>
      intro t s hs
      exact absurd hs (Nat.not_lt_zero _)
  | succ fuel ih =>
      intro t s hs
      show ∃ s', (if t ∈ s.make.table then _ else _) = some s' ∧ _
      by_cases ht : t ∈ s.make.table
      · rw [if_pos ht]
        exact ⟨s.make, rfl, Ran.seen ht⟩
      · rw [if_neg ht]
        have hless : (s.make.mark t).unchecked < s.unchecked := unchecked_mark ht
        obtain ⟨s', hs', hran⟩ := checkParts_ran ih t (s.make.mark t) (by omega)
        exact ⟨s', hs', Ran.mark ht hran⟩

/-- A sequence of calls is a walk, too. -/
theorem checkTypes_ran {fuel : ℕ} (ts : List τ) (s : St τ) (hs : s.unchecked < fuel) :
    ∃ s', checkTypes isUpper G fuel ts s = some s' ∧ Ran isUpper G ts [] s s' := by
  induction ts generalizing s with
  | nil => exact ⟨s, rfl, Ran.refl s⟩
  | cons t ts ih =>
      obtain ⟨s₁, hs₁, hran₁⟩ := checkType_ran fuel t s hs
      obtain ⟨s₂, hs₂, hran₂⟩ := ih s₁ (Nat.lt_of_le_of_lt hran₁.unchecked_le hs)
      refine ⟨s₂, ?_, hran₁.append hran₂⟩
      show (checkType isUpper G fuel t s).bind _ = some s₂
      rw [hs₁]
      exact hs₂

end

/-! ## §5. The bound on nested calls. -/

/-- Whatever `call` returns, `call'` returns. -/
def CallLe (call call' : τ → St τ → Option (St τ)) : Prop :=
  ∀ t s s', call t s = some s' → call' t s = some s'

omit [DecidableEq τ] in
theorem checkFields_mono {call call' : τ → St τ → Option (St τ)} (h : CallLe call call') (t : τ)
    (fs : List (StructField τ)) (s s' : St τ)
    (hs : checkFields isUpper G call t fs s = some s') :
    checkFields isUpper G call' t fs s = some s' := by
  induction fs generalizing s with
  | nil => exact hs
  | cons f fs ih =>
      obtain ⟨s₁, hs₁, hrest⟩ := Option.bind_eq_some_iff.mp hs
      exact Option.bind_eq_some_iff.mpr ⟨s₁, h _ _ _ hs₁, ih s₁ hrest⟩

omit [DecidableEq τ] in
theorem checkParts_mono {call call' : τ → St τ → Option (St τ)} (h : CallLe call call') :
    CallLe (checkParts isUpper G call) (checkParts isUpper G call') := by
  intro t s s' hs
  unfold checkParts at hs ⊢
  cases hk : G.kind t with
  | Struct fields =>
      rw [hk] at hs
      exact checkFields_mono h t fields s s' hs
  | Slice elem | Array elem | Ptr elem =>
      rw [hk] at hs
      exact h elem s s' hs
  | Map key elem =>
      rw [hk] at hs
      obtain ⟨s₁, hs₁, hrest⟩ := Option.bind_eq_some_iff.mp hs
      exact Option.bind_eq_some_iff.mpr ⟨s₁, h _ _ _ hs₁, h _ _ _ hrest⟩
  | other =>
      rw [hk] at hs
      exact hs

/-- **A call that returns** returns the same with room for more nested calls. -/
theorem checkType_mono {fuel fuel' : ℕ} (hle : fuel ≤ fuel') :
    CallLe (checkType isUpper G fuel) (checkType isUpper G fuel') := by
  induction fuel generalizing fuel' with
  | zero =>
      intro t s s' hs
      cases hs
  | succ fuel ih =>
      obtain ⟨k, rfl⟩ : ∃ k, fuel' = k + 1 := ⟨fuel' - 1, by omega⟩
      intro t s s' hs
      unfold checkType at hs ⊢
      by_cases ht : t ∈ s.make.table
      · rw [if_pos ht] at hs ⊢
        exact hs
      · rw [if_neg ht] at hs ⊢
        exact checkParts_mono (ih (by omega)) _ _ _ hs

theorem checkTypes_mono {fuel fuel' : ℕ} (hle : fuel ≤ fuel') (ts : List τ) (s s' : St τ)
    (hs : checkTypes isUpper G fuel ts s = some s') :
    checkTypes isUpper G fuel' ts s = some s' := by
  induction ts generalizing s with
  | nil => exact hs
  | cons t ts ih =>
      obtain ⟨s₁, hs₁, hrest⟩ := Option.bind_eq_some_iff.mp hs
      exact Option.bind_eq_some_iff.mpr ⟨s₁, checkType_mono hle _ _ _ hs₁, ih s₁ hrest⟩

/-! ## §6. Sequences of calls from an empty table. -/

variable [Fintype τ]

/-- From an empty table: the calls return, whatever the bound, if it is above the number of
types, the table is what can be reached, and one line is printed for each lower-case field
there, and counted. -/
theorem checkTypes_spec (isUpper : ℕ → Bool) (G : Types τ) (ts : List τ) (s : St τ)
    (hs : s.table = ∅) :
    ∃ s', (∀ fuel, Fintype.card τ < fuel → checkTypes isUpper G fuel ts s = some s') ∧
      s'.table = G.reachable ts ∧
      (s'.out : Multiset (List UInt8)) = s.out +
        ∑ u ∈ G.reachable ts,
          (G.warnings u (G.lowerFields isUpper u) : Multiset (List UInt8)) ∧
      s'.errorCount + s.out.length = s.errorCount + s'.out.length := by
  have hroom : s.unchecked < Fintype.card τ + 1 := Nat.lt_succ_of_le (Finset.card_le_univ _)
  obtain ⟨s', hs', hran⟩ :
      ∃ s', checkTypes isUpper G _ ts s = some s' ∧ Ran isUpper G ts [] s s' :=
    checkTypes_ran ts s hroom
  obtain ⟨new, hwalk, hout, hcount⟩ := hran
  rw [hs] at hwalk
  have htable : s'.table = G.reachable ts := by
    ext u
    rw [hwalk.mem_iff, mem_reachable]
  refine ⟨s', ?_, htable, ?_, hcount⟩
  · intro fuel hfuel
    exact checkTypes_mono hfuel ts s s' hs'
  · rw [← htable, hwalk.sum, Finset.sum_empty, zero_add, hout, Multiset.coe_nil, add_zero]

/-- **From an empty table every sequence of calls returns**, `checked` holds the types that
can be reached from those passed, no others, and `errorCount` has grown by the number of
their lower-case fields.  Both depend on the set of types passed alone. -/
theorem checkTypes_reachable (isUpper : ℕ → Bool) (G : Types τ) (ts : List τ) (s : St τ)
    (hs : s.table = ∅) :
    ∃ s', (∀ fuel, Fintype.card τ < fuel → checkTypes isUpper G fuel ts s = some s') ∧
      (∀ u, u ∈ s'.table ↔ ∃ t ∈ ts, Reaches G.parts t u) ∧
      s'.errorCount =
        s.errorCount + ∑ u ∈ G.reachable ts, (G.lowerFields isUpper u).length := by
  obtain ⟨s', hruns, htable, hout, hcount⟩ := checkTypes_spec isUpper G ts s hs
  refine ⟨s', hruns, ?_, ?_⟩
  · intro u
    rw [htable, mem_reachable]
  · have hlines : s'.out.length =
        s.out.length + ∑ u ∈ G.reachable ts, (G.lowerFields isUpper u).length := by
      have hcard := congrArg Multiset.card hout
      rw [Multiset.coe_card, Multiset.card_add, Multiset.coe_card, Multiset.card_sum] at hcard
      simpa [Types.warnings] using hcard
    omega

end

/-- The types of `TestCapital`: `[]map[*T4]int`, `map[*T4]int`, `*T4`, `int`, `T4`,
`*[]map[T4]int`, `[]map[T4]int` and `map[T4]int`. -/
def testCapital : Types (Fin 8) where
  kind
    | 0 => .Slice 1
    | 1 => .Map 2 3
    | 2 => .Ptr 4
    | 3 => .other
    | 4 => .Struct [⟨[89, 101, 115], 3⟩, ⟨[110, 111], 3⟩]
    | 5 => .Ptr 6
    | 6 => .Slice 7
    | 7 => .Map 4 3
  Name
    | 3 => [105, 110, 116]
    | 4 => [84, 52]
    | _ => []

/-- `unicode.IsUpper` on ASCII. -/
def isUpperAscii (r : ℕ) : Bool := 65 ≤ r && r ≤ 90

/-- The two calls of `TestCapital`. -/
theorem checkTypes_testCapital :
    (⟨none, 0, []⟩ : St (Fin 8)).table = ∅ ∧
      ∃ s', (∀ fuel, 8 < fuel →
          checkTypes isUpperAscii testCapital fuel [0, 5] ⟨none, 0, []⟩ = some s') ∧
        (∀ u, u ∈ s'.table ↔ ∃ t ∈ [0, 5], Reaches testCapital.parts t u) ∧
        s'.errorCount = 0 +
          ∑ u ∈ testCapital.reachable [0, 5], (testCapital.lowerFields isUpperAscii u).length :=
  ⟨rfl, checkTypes_reachable isUpperAscii testCapital [0, 5] ⟨none, 0, []⟩ rfl⟩

example : (checkTypes isUpperAscii testCapital 9 [0, 5] ⟨none, 0, []⟩).map St.errorCount =
    some 1 := by
  decide

end ComputerScience.Labgob
