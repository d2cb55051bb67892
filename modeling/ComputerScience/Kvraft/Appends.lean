/-
  ComputerScience.Kvraft.Appends
  ──────────────────────────────
  **WHAT THE KEY/VALUE TESTS CHECK OF THE APPENDS** (`kvraft/test_test.go`,
  `checkClntAppends` and `checkConcurrentAppends`).

  The clients of a test append `"x clnt j y"` for `j = 0, 1, ...` to a key whose value was the
  empty string.  The checks look into the value only with `strings.Index` and
  `strings.LastIndex`; that this is enough rests on the `x` and the `y`, which keep element 1
  from being found inside of element 11.

  A string is its bytes.  `t.Fatalf` ends the test: it is the `error` of an `Except`.

  Main results:
    • `marked_element` — the elements are words between two marks,
    • `checkLoop_ok_iff` — what a loop over the elements of one client has seen,
    • `checkAppends_iff` — the values the checks accept.
-/
import ComputerScience.Lib.Decimal
import ComputerScience.Lib.Occurrences

namespace ComputerScience.Kvraft

open ComputerScience.Lib ComputerScience.Lib.Occurrences

/-! ## §1. The elements, the errors, the two checks. -/

/-- Append number `j` of client `clnt`. -/
structure Elem where
  clnt : ℤ
  j : ℤ
  deriving DecidableEq, Repr

/-- `"x " + strconv.Itoa(clnt) + " " + strconv.Itoa(j) + " y"`. -/
def element (e : Elem) : List UInt8 :=
  120 :: 32 :: (decimal e.clnt ++ 32 :: (decimal e.j ++ [32, 121]))

/-- The errors of the checks, with the values that go into their texts. -/
inductive AppendError where
  | missing (clnt : ℤ) (wanted v : List UInt8)
  | duplicate (wanted : List UInt8)
  | wrongOrder (wanted : List UInt8)
  deriving DecidableEq, Repr

/-- What `t.Fatalf` prints, with `fmt` for the `%v` of a string. -/
def AppendError.text (fmt : List UInt8 → String) : AppendError → String
  | .missing clnt wanted v =>
      toString clnt ++ " missing element " ++ fmt wanted ++ " in Append result " ++ fmt v
  | .duplicate wanted => "duplicate element " ++ fmt wanted ++ " in Append result"
  | .wrongOrder wanted => "wrong order for element " ++ fmt wanted ++ " in Append result"

/-- One turn of the loop over `j`; the result is the next `lastoff`. -/
def checkElement (clnt j : ℤ) (v : List UInt8) (lastoff : ℤ) : Except AppendError ℤ :=
  let wanted := element ⟨clnt, j⟩
  let off := index v wanted
  if off < 0 then .error (.missing clnt wanted v)
  else
    let off1 := lastIndex v wanted
    if off1 ≠ off then .error (.duplicate wanted)
    else if off ≤ lastoff then .error (.wrongOrder wanted)
    else .ok off

/-- The loop over `j`, with `n` turns to go. -/
def checkLoop (clnt : ℤ) (v : List UInt8) : ℕ → ℕ → ℤ → Except AppendError Unit
  | 0, _, _ => .ok ()
  | n + 1, j, lastoff => do
      let off ← checkElement clnt j v lastoff
      checkLoop clnt v n (j + 1) off

def checkClntAppends (clnt : ℤ) (v : List UInt8) (count : ℤ) : Except AppendError Unit :=
  checkLoop clnt v count.toNat 0 (-1)

/-- The loop over the clients from `i` on. -/
def clientsLoop (v : List UInt8) : ℕ → List ℤ → Except AppendError Unit
  | _, [] => .ok ()
  | i, count :: counts => do
      checkLoop i v count.toNat 0 (-1)
      clientsLoop v (i + 1) counts

def checkConcurrentAppends (v : List UInt8) (counts : List ℤ) : Except AppendError Unit :=
  clientsLoop v 0 counts

/-! ## §2. The elements are marked words. -/

theorem element_injective : Function.Injective element := by
  intro e f h
  have hspace : ∀ v : ℤ, (32 : UInt8) ∉ decimal v := not_mem_decimal (by decide) (by decide)
  have hrest := (List.cons.inj (List.cons.inj h).2).2
  -- the number of the client ends at the first space
  have hclnt : decimal e.clnt = decimal f.clnt := split_unique hrest (hspace e.clnt) (hspace f.clnt)
  rw [hclnt] at hrest
  have hj : decimal e.j = decimal f.j :=
    List.append_cancel_right (List.cons.inj (List.append_cancel_left hrest)).2
  have hread : ∀ v w : ℤ, decimal v = decimal w → v = w := by
    intro v w hvw
    have hparse := parseDecimal_decimal v
    rw [hvw, parseDecimal_decimal] at hparse
    exact (Option.some.inj hparse).symm
  obtain ⟨clnt, j⟩ := e
  obtain ⟨clnt', j'⟩ := f
  obtain rfl := hread clnt clnt' hclnt
  obtain rfl := hread j j' hj
  rfl

/-- Between its marks an element has spaces and numbers. -/
theorem not_mem_body {c : UInt8} (hspace : c ≠ 32) (hsign : c ≠ 45)
    (hdigit : c.toNat < 48 ∨ 57 < c.toNat) (e : Elem) :
    c ∉ 32 :: (decimal e.clnt ++ 32 :: (decimal e.j ++ [32])) := by
  simp only [List.mem_cons, List.mem_append, List.not_mem_nil, or_false, not_or]
  exact ⟨hspace, not_mem_decimal hsign hdigit _, hspace, not_mem_decimal hsign hdigit _, hspace⟩

/-- An element begins with its `x` and ends with its `y`. -/
theorem marked_element : Marked element 120 121 where
  form := by
    intro e
    refine ⟨32 :: (decimal e.clnt ++ 32 :: (decimal e.j ++ [32])), ?_, ?_, ?_⟩
    · simp only [element, List.cons_append, List.append_assoc, List.nil_append]
    · exact not_mem_body (by decide) (by decide) (by decide) e
    · exact not_mem_body (by decide) (by decide) (by decide) e
  ne := by decide
  inj := element_injective

/-! ## §3. One element, one client, all clients. -/

theorem bind_ok_iff {ε σ τ : Type} {x : Except ε σ} {f : σ → Except ε τ} {b : τ} :
    x >>= f = .ok b ↔ ∃ a, x = .ok a ∧ f a = .ok b := by
  cases x with
  | error e =>
      constructor
      · exact fun h => nomatch h
      · rintro ⟨a, h, -⟩
        exact nomatch h
  | ok a =>
      constructor
      · exact fun h => ⟨a, rfl, h⟩
      · rintro ⟨a', h, hf⟩
        obtain rfl := Except.ok.inj h
        exact hf

/-- What is checked of one client: its first `n` appends are there once each, and in order. -/
structure InOrder (es : List Elem) (clnt : ℤ) (n : ℕ) : Prop where
  once : ∀ j : ℕ, j < n → es.count ⟨clnt, j⟩ = 1
  ordered : ∀ j k : ℕ, j < k → k < n → es.idxOf ⟨clnt, j⟩ < es.idxOf ⟨clnt, k⟩

/-- **One turn passes on an element that is there once, behind the one before.** -/
theorem checkElement_ok_iff (es : List Elem) (clnt j lastoff off : ℤ) :
    checkElement clnt j (es.flatMap element) lastoff = .ok off ↔
      es.count ⟨clnt, j⟩ = 1 ∧ off = offset element es (es.idxOf ⟨clnt, j⟩) ∧ lastoff < off := by
  rw [checkElement]
  by_cases he : Elem.mk clnt j ∈ es
  · have hmeet := marked_element.lastIndex_eq_index_iff he
    rw [marked_element.index_flatMap, if_pos he] at hmeet ⊢
    rw [if_neg (by omega)]
    -- the second test of the turn, whether `LastIndex` agrees with `Index`
    by_cases hone : es.count ⟨clnt, j⟩ = 1
    · rw [if_neg (fun hne => hne (hmeet.mpr hone))]
      -- the third, whether it is behind the element before
      by_cases hle : (offset element es (es.idxOf ⟨clnt, j⟩) : ℤ) ≤ lastoff
      · rw [if_pos hle]
        constructor
        · intro h
          exact nomatch h
        · rintro ⟨-, rfl, hlt⟩
          omega
      · rw [if_neg hle]
        constructor
        · intro h
          obtain rfl := Except.ok.inj h
          exact ⟨hone, rfl, by omega⟩
        · rintro ⟨-, rfl, -⟩
          rfl
    · rw [if_pos (fun heq => hone (hmeet.mp heq))]
      constructor
      · intro h
        exact nomatch h
      · rintro ⟨hone', -, -⟩
        exact absurd hone' hone
  · rw [marked_element.index_flatMap, if_neg he, if_pos (by decide)]
    constructor
    · intro h
      exact nomatch h
    · rintro ⟨hone, -, -⟩
      rw [List.count_eq_zero_of_not_mem he] at hone
      exact absurd hone (by decide)

/-- The loop from `j` on: `n` elements, each behind the one before. -/
theorem checkLoop_ok_iff (es : List Elem) (clnt : ℤ) (n j : ℕ) (lastoff : ℤ) :
    checkLoop clnt (es.flatMap element) n j lastoff = .ok () ↔
      (∀ i : ℕ, j ≤ i → i < j + n → es.count ⟨clnt, i⟩ = 1) ∧
      (0 < n → lastoff < offset element es (es.idxOf ⟨clnt, j⟩)) ∧
      ∀ i : ℕ, j ≤ i → i + 1 < j + n →
        offset element es (es.idxOf ⟨clnt, i⟩) <
          offset element es (es.idxOf ⟨clnt, (i + 1 : ℕ)⟩) := by
  -- of the turns before `j` only `lastoff` is left
  induction n generalizing j lastoff with
  | zero =>
      constructor
      · intro _
        exact ⟨fun i h h' => absurd h' (by omega), fun h => absurd h (by omega),
          fun i h h' => absurd h' (by omega)⟩
      · exact fun _ => rfl
  | succ n ih =>
      constructor
      · intro h
        rw [checkLoop] at h
        obtain ⟨off, helem, hrest⟩ := bind_ok_iff.mp h
        obtain ⟨hone, rfl, hlast⟩ := (checkElement_ok_iff es clnt j lastoff off).mp helem
        obtain ⟨honce, hnext, hord⟩ := (ih (j + 1) _).mp hrest
        refine ⟨fun i hi hlt => ?_, fun _ => hlast, fun i hi hlt => ?_⟩
        · rcases Nat.eq_or_lt_of_le hi with rfl | hgt
          · exact hone
          · exact honce i hgt (by omega)
        · rcases Nat.eq_or_lt_of_le hi with rfl | hgt
          · exact Int.ofNat_lt.mp (hnext (by omega))
          · exact hord i hgt (by omega)
      · rintro ⟨honce, hlast, hord⟩
        have helem := (checkElement_ok_iff es clnt j lastoff _).mpr
          ⟨honce j (Nat.le_refl j) (by omega), rfl, hlast (Nat.succ_pos n)⟩
        rw [checkLoop, helem]
        refine (ih (j + 1) _).mpr ⟨fun i hi hlt => honce i (by omega) (by omega), fun hn => ?_,
          fun i hi hlt => hord i (by omega) (by omega)⟩
        exact Int.ofNat_lt.mpr (hord j (Nat.le_refl j) (by omega))

/-- **The check of one client.** -/
theorem checkClient_iff (es : List Elem) (clnt : ℤ) (n : ℕ) :
    checkLoop clnt (es.flatMap element) n 0 (-1) = .ok () ↔ InOrder es clnt n := by
  rw [checkLoop_ok_iff]
  have hmem : (∀ j : ℕ, j < n → es.count ⟨clnt, j⟩ = 1) → ∀ j : ℕ, j < n →
      es.idxOf ⟨clnt, j⟩ < es.length := by
    intro honce j hj
    have hpos : 0 < es.count ⟨clnt, j⟩ := by rw [honce j hj]; exact Nat.one_pos
    exact List.idxOf_lt_length_of_mem (List.count_pos_iff.mp hpos)
  constructor
  · rintro ⟨honce, -, hord⟩
    have honce' : ∀ j : ℕ, j < n → es.count ⟨clnt, j⟩ = 1 :=
      fun j hj => honce j (Nat.zero_le j) (by omega)
    refine ⟨honce', fun j k hjk hk => ?_⟩
    -- the loop compares neighbours; the induction is on the later of the two elements
    induction k with
    | zero => exact absurd hjk (Nat.not_lt_zero j)
    | succ k ih =>
        have hstep := (marked_element.offset_lt_iff (hmem honce' k (by omega))
          (hmem honce' (k + 1) hk)).mp (hord k (Nat.zero_le k) (by omega))
        rcases Nat.eq_or_lt_of_le (Nat.le_of_lt_succ hjk) with rfl | hlt
        · exact hstep
        · exact Nat.lt_trans (ih hlt (by omega)) hstep
  · intro h
    refine ⟨fun i _ hi => h.once i (by omega), fun _ => by omega, fun i _ hi => ?_⟩
    exact (marked_element.offset_lt_iff (hmem h.once i (by omega))
      (hmem h.once (i + 1) (by omega))).mpr (h.ordered i (i + 1) (Nat.lt_succ_self i) (by omega))

theorem clientsLoop_ok_iff (es : List Elem) (counts : List ℤ) (i : ℕ) :
    clientsLoop (es.flatMap element) i counts = .ok () ↔
      ∀ k : ℕ, ∀ count, counts[k]? = some count → InOrder es (i + k : ℕ) count.toNat := by
  induction counts generalizing i with
  | nil =>
      constructor
      · exact fun _ k count hk => nomatch hk
      · exact fun _ => rfl
  | cons c counts ih =>
      constructor
      · intro h k count hk
        rw [clientsLoop] at h
        obtain ⟨⟨⟩, hfirst, hrest⟩ := bind_ok_iff.mp h
        cases k with
        | zero =>
            obtain rfl := Option.some.inj hk
            exact (checkClient_iff es i c.toNat).mp hfirst
        | succ k =>
            have hlater := (ih (i + 1)).mp hrest k count hk
            rwa [Nat.add_right_comm] at hlater
      · intro h
        have hfirst := (checkClient_iff es i c.toNat).mpr (h 0 c rfl)
        rw [clientsLoop, hfirst]
        refine (ih (i + 1)).mpr (fun k count hk => ?_)
        have hlater := h (k + 1) count hk
        rwa [← Nat.add_assoc, Nat.add_right_comm] at hlater

/-- **The checks pass exactly on what they are for**: on a value that is put together from
appends, in any number and order and of any clients, both pass if and only if of every client
checked the counted appends are there, once each and in the order of their numbers.  An element
is found only where it was appended. -/
theorem checkAppends_iff (es : List Elem) :
    (∀ clnt count : ℤ, checkClntAppends clnt (es.flatMap element) count = .ok () ↔
      InOrder es clnt count.toNat) ∧
    (∀ counts : List ℤ, checkConcurrentAppends (es.flatMap element) counts = .ok () ↔
      ∀ i : ℕ, ∀ count, counts[i]? = some count → InOrder es i count.toNat) ∧
    ∀ (e : Elem) (o : ℕ), element e <+: (es.flatMap element).drop o ↔
      ∃ k : ℕ, es[k]? = some e ∧ o = offset element es k := by
  refine ⟨fun clnt count => checkClient_iff es clnt count.toNat, fun counts => ?_,
    fun e o => marked_element.occurs_iff e es o⟩
  rw [checkConcurrentAppends, clientsLoop_ok_iff]
  simp only [Nat.zero_add]

end ComputerScience.Kvraft
