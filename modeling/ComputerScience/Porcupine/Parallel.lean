/-
  ComputerScience.Porcupine.Parallel
  ──────────────────────────────────
  **`checkParallel` OVER ALL INTERLEAVINGS** (`porcupine/checker.go`).

  One goroutine per partition runs `checkSingle` and sends its answer; the main goroutine
  collects the answers in a `select` with the timer, and sets `kill` when it stops early.  A
  goroutine that sees `kill` answers `false` without having finished, so an answer that is
  received must not be such a one.

  Main results:
    • `checkParallel_verdict` — whatever the interleaving, `Ok` is returned only if all
      partitions have a linearization and `Illegal` only if one has none,
    • `checkParallel_reads` — the partial linearizations are read when no goroutine writes any
      more,
    • `checkParallel_info` — they are the longest ones unless the timer fired,
    • `checkParallel_ends` — every run ends; the main goroutine blocks only if there is no
      partition and no timer.
-/
import ComputerScience.Lib.Pool
import ComputerScience.Lib.TransitionSystem
import ComputerScience.Porcupine.CheckSingle

namespace ComputerScience.Porcupine

open ComputerScience.Lib

variable {I O S : Type}

/-! ## §1. The program. -/

/-- `CheckResult`; `unknown` stands for a timeout. -/
inductive CheckResult
  | unknown
  | ok
  | illegal
  deriving DecidableEq, Repr

/-- `linearizationInfo`: the entries of each partition and its partial linearizations. -/
structure LinearizationInfo (I O : Type) where
  history : List (List (Entry I O))
  partialLinearizations : List (List (List ℕ))

/-- The goroutine of a partition. -/
inductive Goroutine (I O S : Type)
  /-- just started -/
  | starting (subhistory : List (Entry I O))
  /-- in the loop of `checkSingle` -/
  | checking (c : Checker I O S)
  /-- before `longest[i] = l` -/
  | returned (ok : Bool) (l : Longest)
  /-- before `results <- ok` -/
  | sending (ok : Bool)
  /-- behind it -/
  | exited (ok : Bool)

/-- Where the main goroutine is. -/
inductive MainPc (I O : Type)
  /-- the loop that starts the goroutines -/
  | spawn (i : ℕ)
  /-- at `select` -/
  | select
  /-- before `atomic.StoreInt32(&kill, 1)` -/
  | killing
  /-- behind the loop; with `computeInfo` the other answers are waited for -/
  | drain
  | finished (result : CheckResult) (info : Option (LinearizationInfo I O))

structure Parallel (I O S : Type) where
  goroutines : List (Goroutine I O S)
  /-- the buffer of `results := make(chan bool, len(history))` -/
  results : List Bool
  longest : List (Option Longest)
  kill : Bool
  main : MainPc I O
  ok : Bool
  timedOut : Bool
  count : ℕ
  /-- a goroutine has panicked -/
  crashed : Bool

/-- The order in which `range` visits the pointers of a set: any order. -/
structure PointerOrder where
  range : List (ℕ × List ℕ) → List (ℕ × List ℕ)
  perm : ∀ l, (range l).Perm l

/-- `partials` for one partition: the pointers in `longest[i]` are made into a set, and the
slices they point to are copied. -/
def partials (ord : PointerOrder) (longest : Option Longest) : List (List ℕ) :=
  let set := ((longest.getD []).filterMap id).dedup
  (ord.range set).map Prod.snd

/-- `result` at the end of `checkParallel`. -/
def checkResult (ok timedOut : Bool) : CheckResult :=
  if !ok then .illegal else if timedOut then .unknown else .ok

/-- What the main goroutine does with an answer. -/
def received (computeInfo : Bool) (partitions : ℕ) (s : Parallel I O S) (result : Bool)
    (rest : List Bool) : Parallel I O S :=
  let ok := s.ok && result
  let main : MainPc I O :=
    if !ok && !computeInfo then .killing
    else if s.count + 1 ≥ partitions then .drain
    else .select
  { s with results := rest, count := s.count + 1, ok := ok, main := main }

section Program

variable (M : CheckModel I O S) (ord : ℕ → PointerOrder) (history : List (List (Entry I O)))
  (computeInfo timeout : Bool)

/-- One step of one goroutine; `timeout` says that there is a timer, which may fire at any
moment. -/
inductive ParallelStep (s : Parallel I O S) : Parallel I O S → Prop
  | spawn (i : ℕ) (es : List (Entry I O)) (hmain : s.main = .spawn i) (hi : history[i]? = some es) :
      ParallelStep s
        { s with goroutines := s.goroutines ++ [.starting es], main := .spawn (i + 1) }
  | spawned (hmain : s.main = .spawn history.length) : ParallelStep s { s with main := .select }
  | start (j : ℕ) (es : List (Entry I O)) (c : Checker I O S)
      (hj : s.goroutines[j]? = some (.starting es)) (hc : checkStart M es = some c) :
      ParallelStep s { s with goroutines := s.goroutines.set j (.checking c) }
  | startPanic (j : ℕ) (es : List (Entry I O)) (hj : s.goroutines[j]? = some (.starting es))
      (hc : checkStart M es = none) : ParallelStep s { s with crashed := true }
  | turn (j : ℕ) (c c' : Checker I O S) (hj : s.goroutines[j]? = some (.checking c))
      (hc : checkTurn M computeInfo s.kill c = .inl c') :
      ParallelStep s { s with goroutines := s.goroutines.set j (.checking c') }
  | answer (j : ℕ) (c : Checker I O S) (ok : Bool) (l : Longest)
      (hj : s.goroutines[j]? = some (.checking c))
      (hc : checkTurn M computeInfo s.kill c = .inr (some (ok, l))) :
      ParallelStep s { s with goroutines := s.goroutines.set j (.returned ok l) }
  | turnPanic (j : ℕ) (c : Checker I O S) (hj : s.goroutines[j]? = some (.checking c))
      (hc : checkTurn M computeInfo s.kill c = .inr none) : ParallelStep s { s with crashed := true }
  | store (j : ℕ) (ok : Bool) (l : Longest) (hj : s.goroutines[j]? = some (.returned ok l)) :
      ParallelStep s
        { s with
          goroutines := s.goroutines.set j (.sending ok)
          longest := s.longest.set j (some l) }
  | send (j : ℕ) (ok : Bool) (hj : s.goroutines[j]? = some (.sending ok))
      (hroom : s.results.length < history.length) :
      ParallelStep s
        { s with
          goroutines := s.goroutines.set j (.exited ok)
          results := s.results ++ [ok] }
  | receive (result : Bool) (rest : List Bool) (hmain : s.main = .select)
      (hres : s.results = result :: rest) :
      ParallelStep s (received computeInfo history.length s result rest)
  | timer (hmain : s.main = .select) (htimeout : timeout = true) :
      ParallelStep s { s with timedOut := true, main := .killing }
  | kill (hmain : s.main = .killing) : ParallelStep s { s with kill := true, main := .drain }
  | drain (result : Bool) (rest : List Bool) (hmain : s.main = .drain)
      (hinfo : computeInfo = true) (hcount : s.count < history.length)
      (hres : s.results = result :: rest) :
      ParallelStep s { s with results := rest, count := s.count + 1 }
  | finish (hmain : s.main = .drain) (hcount : computeInfo = true → history.length ≤ s.count) :
      ParallelStep s
        { s with
          main := .finished (checkResult s.ok s.timedOut)
            (if computeInfo then
              some ⟨history, s.longest.mapIdx fun i l => partials (ord i) l⟩
            else none) }

/-- `checkParallel(model, history, computeInfo, timeout)` -/
def checkParallel : System (Parallel I O S) where
  init s := s = ⟨[], [], List.replicate history.length none, false, .spawn 0, true, false, 0, false⟩
  step s s' := s.crashed = false ∧ ParallelStep M ord history computeInfo timeout s s'

end Program

/-! ## §2. The invariant. -/

section Invariant

variable (M : CheckModel I O S) (history : List (List (Entry I O))) (computeInfo timeout : Bool)

/-- The partition has a linearization. -/
def Solv (es : List (Entry I O)) : Prop :=
  (checkProblem M es).Solvable (checkRoot M (es.length / 2))

/-- An answer is right, or it is that of a goroutine that was killed. -/
def Answered (es : List (Entry I O)) (kill ok : Bool) : Prop :=
  (ok = true ↔ Solv M es) ∨ (kill = true ∧ ok = false)

/-- The prefixes of an answer. -/
def Kept (es : List (Entry I O)) (kill : Bool) (l : Longest) : Prop :=
  computeInfo = true → LongestSpec M es (es.length / 2) l ∨
    (kill = true ∧ LongestSound M es (es.length / 2) l)

/-- What is known of the goroutine of the partition `es`, whose slot in `longest` is `slot`;
`k` bounds the number of its steps. -/
def GoroutineOk (es : List (Entry I O)) (kill : Bool) (slot : Option (Option Longest)) (k : ℕ) :
    Goroutine I O S → Prop
  | .starting es' => es' = es ∧ k = checkBound es.length + 4
  | .checking c => ∃ k', Running M es (es.length / 2) computeInfo k' c ∧ k = k' + 4
  | .returned ok l => Answered M es kill ok ∧ Kept M computeInfo es kill l ∧ k = 3
  | .sending ok =>
      Answered M es kill ok ∧ (∃ l, slot = some (some l) ∧ Kept M computeInfo es kill l) ∧ k = 2
  | .exited ok =>
      Answered M es kill ok ∧ (∃ l, slot = some (some l) ∧ Kept M computeInfo es kill l) ∧ k = 0

/-- How many goroutines have been started. -/
def spawned : MainPc I O → ℕ
  | .spawn i => i
  | _ => history.length

def isExited : Goroutine I O S → ℕ
  | .exited _ => 1
  | _ => 0

/-- As long as the main goroutine may receive an answer, no goroutine was killed, and a
negative answer is in the channel or was received. -/
structure Looping (s : Parallel I O S) : Prop where
  kill : s.kill = false
  timedOut : s.timedOut = false
  exited : ∀ j : ℕ, s.goroutines[j]? = some (.exited false) → s.ok = false ∨ false ∈ s.results
  results : false ∈ s.results → ∃ es ∈ history, ¬ Solv M es

/-- What is known behind the loop. -/
structure Decided (s : Parallel I O S) : Prop where
  all : s.timedOut = false → s.ok = true → ∀ es ∈ history, Solv M es
  kill : computeInfo = true → s.kill = true → s.timedOut = true

/-- The partial linearizations that are returned for a partition. -/
structure PartialsOk (es : List (Entry I O)) (timedOut : Bool) (ps : List (List ℕ)) : Prop where
  sound : ∀ p ∈ ps, ∃ d, (checkProblem M es).Path (checkRoot M (es.length / 2)) p d
  maximal : timedOut = false → ∀ ids d,
    (checkProblem M es).Path (checkRoot M (es.length / 2)) ids d → ∀ i ∈ ids,
    ∃ p ∈ ps, i ∈ p ∧ ids.length ≤ p.length

/-- The information that is returned. -/
def InfoOk (timedOut : Bool) (info : Option (LinearizationInfo I O)) : Prop :=
  computeInfo = true → ∃ li, info = some li ∧ li.history = history ∧
    li.partialLinearizations.length = history.length ∧
    ∀ (j : ℕ) es, history[j]? = some es →
      ∃ ps, li.partialLinearizations[j]? = some ps ∧ PartialsOk M es timedOut ps

/-- What is known of the main goroutine. -/
def MainOk (s : Parallel I O S) : Prop :=
  match s.main with
  | .spawn i => i ≤ history.length ∧ s.count = 0 ∧ Looping M history s
  | .select => (s.count < history.length ∨ history = []) ∧ Looping M history s
  | .killing => Decided M history computeInfo s ∧ (computeInfo = true → s.timedOut = true)
  | .drain => Decided M history computeInfo s
  | .finished result info => Decided M history computeInfo s ∧
      result = checkResult s.ok s.timedOut ∧ InfoOk M history computeInfo s.timedOut info

/-- **The invariant**; `ks` bounds the steps of the goroutines. -/
structure ParallelOk (ks : List ℕ) (s : Parallel I O S) : Prop where
  crashed : s.crashed = false
  length : s.goroutines.length = spawned history s.main
  ranks : ks.length = s.goroutines.length
  slots : s.longest.length = history.length
  each : ∀ (j : ℕ) g k, s.goroutines[j]? = some g → ks[j]? = some k →
    ∃ es, history[j]? = some es ∧ GoroutineOk M computeInfo es s.kill s.longest[j]? k g
  exits : s.count + s.results.length = weight isExited s.goroutines
  timer : s.timedOut = true → timeout = true
  illegal : s.ok = false → ∃ es ∈ history, ¬ Solv M es
  main : MainOk M history computeInfo s
  blocked : history = [] → timeout = false → s.main = .select ∨ ∃ i, s.main = .spawn i

/-- The steps that the main goroutine has left, apart from the answers. -/
def mainRank : MainPc I O → ℕ
  | .spawn i => weight (fun es => checkBound es.length + 5) (history.drop i) + 4
  | .select => 3
  | .killing => 2
  | .drain => 1
  | .finished _ _ => 0

/-- A bound of the number of steps. -/
def parallelRank (ks : List ℕ) (s : Parallel I O S) : ℕ :=
  weight id ks + s.results.length + mainRank history s.main

end Invariant

variable {M : CheckModel I O S} {history : List (List (Entry I O))} {computeInfo timeout : Bool}
  {ks : List ℕ} {s s' : Parallel I O S}

/-! ## §3. The goroutines. -/

theorem MainOk.answers (h : MainOk M history computeInfo s)
    {goroutines : List (Goroutine I O S)} {new : List Bool} {longest : List (Option Longest)}
    (hexited : ∀ j : ℕ, goroutines[j]? = some (.exited false) →
      s.goroutines[j]? = some (.exited false) ∨ false ∈ new)
    (hnew : s.kill = false → false ∈ new → ∃ es ∈ history, ¬ Solv M es) :
    MainOk M history computeInfo
      { s with goroutines := goroutines, results := s.results ++ new, longest := longest } := by
  have hloop : ∀ main, Looping M history s → Looping M history
      { s with
        main := main, goroutines := goroutines, results := s.results ++ new
        longest := longest } := by
    intro main hl
    refine ⟨hl.kill, hl.timedOut, ?_, ?_⟩
    · intro j hj
      rcases hexited j hj with hold | hin
      · exact (hl.exited j hold).imp_right fun hin => List.mem_append_left _ hin
      · exact Or.inr (List.mem_append_right _ hin)
    · intro hin
      rcases List.mem_append.mp hin with hin | hin
      · exact hl.results hin
      · exact hnew hl.kill hin
  have hdecided : ∀ main, Decided M history computeInfo s → Decided M history computeInfo
      { s with
        main := main, goroutines := goroutines, results := s.results ++ new
        longest := longest } :=
    fun _ hd => ⟨hd.all, hd.kill⟩
  unfold MainOk at h ⊢
  cases hm : s.main with
  | spawn i =>
      rw [hm] at h
      exact ⟨h.1, h.2.1, hloop _ h.2.2⟩
  | select =>
      rw [hm] at h
      exact ⟨h.1, hloop _ h.2⟩
  | killing =>
      rw [hm] at h
      exact ⟨hdecided _ h.1, h.2⟩
  | drain =>
      rw [hm] at h
      exact hdecided _ h
  | finished result info =>
      rw [hm] at h
      exact ⟨hdecided _ h.1, h.2⟩

/-- **A goroutine moves on**, perhaps with an answer or a new slot. -/
theorem ParallelOk.replace (h : ParallelOk M history computeInfo timeout ks s) {j : ℕ}
    {g : Goroutine I O S} {k : ℕ} (hg : s.goroutines[j]? = some g) (hk : ks[j]? = some k)
    (g' : Goroutine I O S) (k' : ℕ) (new : List Bool) (longest : List (Option Longest))
    (hslots : longest.length = s.longest.length) (hother : ∀ i : ℕ, i ≠ j → longest[i]? = s.longest[i]?)
    (hg' : ∀ es, history[j]? = some es → GoroutineOk M computeInfo es s.kill longest[j]? k' g')
    (hweight : isExited g + new.length = isExited g')
    (hexited : g' = .exited false → false ∈ new)
    (hnew : s.kill = false → false ∈ new → ∃ es ∈ history, ¬ Solv M es)
    (hrank : k' + new.length < k) :
    ParallelOk M history computeInfo timeout (ks.set j k')
        { s with
          goroutines := s.goroutines.set j g'
          results := s.results ++ new
          longest := longest } ∧
      parallelRank history (ks.set j k')
        { s with
          goroutines := s.goroutines.set j g'
          results := s.results ++ new
          longest := longest } < parallelRank history ks s := by
  have hset := weight_set isExited g' hg
  have hsum := weight_set id k' hk
  refine ⟨⟨h.crashed, ?_, ?_, hslots.trans h.slots, ?_, ?_, h.timer, h.illegal, ?_, h.blocked⟩, ?_⟩
  · rw [List.length_set]
    exact h.length
  · rw [List.length_set, List.length_set]
    exact h.ranks
  · intro i x y hx hy
    rcases getElem?_set_cases hx with ⟨rfl, rfl⟩ | ⟨hne, hx⟩
    · rcases getElem?_set_cases hy with ⟨-, rfl⟩ | ⟨hne, -⟩
      · obtain ⟨es, hes, -⟩ := h.each i g k hg hk
        exact ⟨es, hes, hg' es hes⟩
      · exact absurd rfl hne
    · rcases getElem?_set_cases hy with ⟨rfl, -⟩ | ⟨-, hy⟩
      · exact absurd rfl hne
      · obtain ⟨es, hes, hok⟩ := h.each i x y hx hy
        refine ⟨es, hes, ?_⟩
        show GoroutineOk M computeInfo es s.kill longest[i]? y x
        rw [hother i hne]
        exact hok
  · have := h.exits
    simp only [List.length_append]
    omega
  · refine h.main.answers ?_ hnew
    intro i hi
    rcases getElem?_set_cases hi with ⟨-, hx⟩ | ⟨-, hx⟩
    · exact Or.inr (hexited hx.symm)
    · exact Or.inl hx
  · simp only [id] at hsum
    simp only [parallelRank, List.length_append]
    omega

/-- The bound of the steps of a goroutine. -/
theorem ParallelOk.rank_of (h : ParallelOk M history computeInfo timeout ks s) {j : ℕ}
    {g : Goroutine I O S} (hg : s.goroutines[j]? = some g) :
    ∃ k es, ks[j]? = some k ∧ history[j]? = some es ∧
      GoroutineOk M computeInfo es s.kill s.longest[j]? k g := by
  have hlt : j < ks.length := by
    rw [h.ranks]
    exact (List.getElem?_eq_some_iff.mp hg).1
  have hk : ks[j]? = some ks[j] := List.getElem?_eq_getElem hlt
  obtain ⟨es, hes, hok⟩ := h.each j g _ hg hk
  exact ⟨_, es, hk, hes, hok⟩

/-- A goroutine moves on without an answer. -/
theorem ParallelOk.move (h : ParallelOk M history computeInfo timeout ks s) {j : ℕ}
    {g : Goroutine I O S} {k : ℕ} {es : List (Entry I O)} (hg : s.goroutines[j]? = some g)
    (hk : ks[j]? = some k) (hes : history[j]? = some es) (g' : Goroutine I O S) (k' : ℕ)
    (hg' : GoroutineOk M computeInfo es s.kill s.longest[j]? k' g')
    (hbefore : isExited g = 0) (hafter : isExited g' = 0) (hrank : k' < k) :
    ∃ ks', ParallelOk M history computeInfo timeout ks'
        { s with goroutines := s.goroutines.set j g' } ∧
      parallelRank history ks' { s with goroutines := s.goroutines.set j g' } <
        parallelRank history ks s := by
  have hrep := h.replace hg hk g' k' [] s.longest rfl
    (fun _ _ => rfl) (fun es' hes' => by cases hes.symm.trans hes'; exact hg')
    (by rw [hbefore, hafter, List.length_nil]) (fun he => by rw [he] at hafter; cases hafter)
    (fun _ => nofun) (by simpa using hrank)
  rw [List.append_nil] at hrep
  exact ⟨_, hrep⟩

section Steps

variable {ord : ℕ → PointerOrder} (hwf : ∀ es ∈ history, WfEntries es (es.length / 2))
  (hequal : EqualSound M) (h : ParallelOk M history computeInfo timeout ks s)
include hwf h

/-- **The steps of the goroutines** keep the invariant. -/
theorem ParallelOk.start {j : ℕ} {es : List (Entry I O)} {c : Checker I O S}
    (hj : s.goroutines[j]? = some (.starting es)) (hc : checkStart M es = some c) :
    ∃ ks', ParallelOk M history computeInfo timeout ks'
        { s with goroutines := s.goroutines.set j (.checking c) } ∧
      parallelRank history ks' { s with goroutines := s.goroutines.set j (.checking c) } <
        parallelRank history ks s := by
  obtain ⟨k, es', hk, hes, rfl, rfl⟩ := h.rank_of hj
  obtain ⟨c', k', hc', hrun, hlt⟩ :=
    Running.start (M := M) (hwf es (List.mem_of_getElem? hes)) computeInfo
  obtain rfl : c = c' := Option.some.inj (hc.symm.trans hc')
  exact h.move hj hk hes _ (k' + 4) ⟨k', hrun, rfl⟩ rfl rfl (by omega)

include hequal

/-- What a goroutine in its loop can do. -/
theorem ParallelOk.turns {j : ℕ} {c : Checker I O S} (hj : s.goroutines[j]? = some (.checking c)) :
    ∃ k es, ks[j]? = some (k + 4) ∧ history[j]? = some es ∧
      ((∃ c' k', checkTurn M computeInfo s.kill c = .inl c' ∧ k' < k ∧
          Running M es (es.length / 2) computeInfo k' c') ∨
        ∃ ok l, checkTurn M computeInfo s.kill c = .inr (some (ok, l)) ∧
          Answered M es s.kill ok ∧ Kept M computeInfo es s.kill l) := by
  obtain ⟨k, es, hk, hes, k', hrun, rfl⟩ := h.rank_of hj
  have hwf' := hwf es (List.mem_of_getElem? hes)
  have hverdict : ∀ {ok l}, Verdict M es (es.length / 2) computeInfo ok l →
      Answered M es s.kill ok ∧ Kept M computeInfo es s.kill l :=
    fun hv => ⟨Or.inl hv.solvable, fun hi => Or.inl (hv.longest hi)⟩
  refine ⟨k', es, hk, hes, ?_⟩
  cases hkill : s.kill with
  | true =>
      rw [hkill] at hverdict
      obtain ⟨ok, l, hturn, hv⟩ := hrun.killed hwf'
      refine Or.inr ⟨ok, l, hturn, ?_⟩
      rcases hv with hv | ⟨rfl, hsound⟩
      · exact hverdict hv
      · exact ⟨Or.inr ⟨rfl, rfl⟩, fun hi => Or.inr ⟨rfl, hsound hi⟩⟩
  | false =>
      rw [hkill] at hverdict
      rcases hrun.turn hwf' hequal with hnext | ⟨ok, l, hturn, hv⟩
      · exact Or.inl hnext
      · exact Or.inr ⟨ok, l, hturn, hverdict hv⟩

theorem ParallelOk.turn {j : ℕ} {c c' : Checker I O S}
    (hj : s.goroutines[j]? = some (.checking c))
    (hc : checkTurn M computeInfo s.kill c = .inl c') :
    ∃ ks', ParallelOk M history computeInfo timeout ks'
        { s with goroutines := s.goroutines.set j (.checking c') } ∧
      parallelRank history ks' { s with goroutines := s.goroutines.set j (.checking c') } <
        parallelRank history ks s := by
  obtain ⟨k, es, hk, hes, hturns⟩ := h.turns hwf hequal hj
  rcases hturns with ⟨c'', k', hturn, hlt, hrun⟩ | ⟨ok, l, hturn, -⟩
  · rw [hturn] at hc
    cases hc
    exact h.move hj hk hes _ (k' + 4) ⟨k', hrun, rfl⟩ rfl rfl (by omega)
  · rw [hturn] at hc
    cases hc

theorem ParallelOk.answer {j : ℕ} {c : Checker I O S} {ok : Bool} {l : Longest}
    (hj : s.goroutines[j]? = some (.checking c))
    (hc : checkTurn M computeInfo s.kill c = .inr (some (ok, l))) :
    ∃ ks', ParallelOk M history computeInfo timeout ks'
        { s with goroutines := s.goroutines.set j (.returned ok l) } ∧
      parallelRank history ks' { s with goroutines := s.goroutines.set j (.returned ok l) } <
        parallelRank history ks s := by
  obtain ⟨k, es, hk, hes, hturns⟩ := h.turns hwf hequal hj
  rcases hturns with ⟨c'', k', hturn, -, -⟩ | ⟨ok', l', hturn, hanswered, hkept⟩
  · rw [hturn] at hc
    cases hc
  · rw [hturn] at hc
    cases hc
    exact h.move hj hk hes _ 3 ⟨hanswered, hkept, rfl⟩ rfl rfl (by omega)

omit hwf hequal in
theorem ParallelOk.store {j : ℕ} {ok : Bool} {l : Longest}
    (hj : s.goroutines[j]? = some (.returned ok l)) :
    ∃ ks', ParallelOk M history computeInfo timeout ks'
        { s with
          goroutines := s.goroutines.set j (.sending ok)
          longest := s.longest.set j (some l) } ∧
      parallelRank history ks'
        { s with
          goroutines := s.goroutines.set j (.sending ok)
          longest := s.longest.set j (some l) } < parallelRank history ks s := by
  obtain ⟨k, es, hk, hes, hanswered, hkept, rfl⟩ := h.rank_of hj
  have hslot : (s.longest.set j (some l))[j]? = some (some l) := by
    refine List.getElem?_set_self ?_
    rw [h.slots]
    exact (List.getElem?_eq_some_iff.mp hes).1
  have hrep := h.replace hj hk (.sending ok) 2 [] (s.longest.set j (some l)) List.length_set
    (fun i hi => List.getElem?_set_ne (Ne.symm hi))
    (fun es' hes' => by
      cases hes.symm.trans hes'
      exact ⟨hanswered, ⟨l, hslot, hkept⟩, rfl⟩)
    rfl nofun (fun _ => nofun) (by decide)
  rw [List.append_nil] at hrep
  exact ⟨_, hrep⟩

omit hwf hequal in
theorem ParallelOk.send {j : ℕ} {ok : Bool} (hj : s.goroutines[j]? = some (.sending ok)) :
    ∃ ks', ParallelOk M history computeInfo timeout ks'
        { s with
          goroutines := s.goroutines.set j (.exited ok)
          results := s.results ++ [ok] } ∧
      parallelRank history ks'
        { s with
          goroutines := s.goroutines.set j (.exited ok)
          results := s.results ++ [ok] } < parallelRank history ks s := by
  obtain ⟨k, es, hk, hes, hanswered, hkept, rfl⟩ := h.rank_of hj
  refine ⟨_, h.replace hj hk (.exited ok) 0 [ok] s.longest rfl
    (fun _ _ => rfl) ?_ rfl ?_ ?_ Nat.one_lt_two⟩
  · intro es' hes'
    cases hes.symm.trans hes'
    exact ⟨hanswered, hkept, rfl⟩
  · intro he
    cases he
    exact List.mem_singleton.mpr rfl
  · -- a negative answer of a goroutine that was not killed
    intro hkill hin
    obtain rfl : false = ok := List.mem_singleton.mp hin
    rcases hanswered with hiff | ⟨hk, -⟩
    · exact ⟨es, List.mem_of_getElem? hes, fun hs => Bool.false_ne_true (hiff.mpr hs)⟩
    · rw [hkill] at hk
      cases hk

end Steps

/-! ## §4. The main goroutine. -/

theorem isExited_le (g : Goroutine I O S) : isExited g ≤ 1 := by
  cases g <;> simp [isExited]

section Main

variable {ord : ℕ → PointerOrder} (h : ParallelOk M history computeInfo timeout ks s)
include h

/-- When all answers were received, all goroutines have exited. -/
theorem ParallelOk.all_exited (hlen : s.goroutines.length = history.length)
    (hcount : history.length ≤ s.count + s.results.length) {j : ℕ} {es : List (Entry I O)}
    (hes : history[j]? = some es) :
    ∃ ok l, s.goroutines[j]? = some (.exited ok) ∧ s.longest[j]? = some (some l) ∧
      Answered M es s.kill ok ∧ Kept M computeInfo es s.kill l := by
  have hle := weight_le_length isExited_le s.goroutines
  have hexits := h.exits
  have hall := all_of_weight_eq_length isExited_le (l := s.goroutines) (by omega)
  have hlt : j < s.goroutines.length := by
    rw [hlen]
    exact (List.getElem?_eq_some_iff.mp hes).1
  have hg : s.goroutines[j]? = some s.goroutines[j] := List.getElem?_eq_getElem hlt
  have hone := hall _ (List.getElem_mem hlt)
  obtain ⟨k, es', hk, hes', hok⟩ := h.rank_of hg
  cases hes.symm.trans hes'
  cases hgor : s.goroutines[j] with
  | exited ok =>
      rw [hgor] at hok hg
      obtain ⟨hanswered, ⟨l, hslot, hkept⟩, -⟩ := hok
      exact ⟨ok, l, hg, hslot, hanswered, hkept⟩
  | _ =>
      rw [hgor] at hone
      cases hone

/-- Behind the loop there was something to wait for. -/
theorem ParallelOk.not_blocked (hselect : s.main ≠ .select) (hspawn : ∀ i, s.main ≠ .spawn i)
    (main : MainPc I O) (hempty : history = []) (htimeout : timeout = false) :
    main = .select ∨ ∃ i, main = .spawn i := by
  rcases h.blocked hempty htimeout with hs | ⟨i, hs⟩
  · exact absurd hs hselect
  · exact absurd hs (hspawn i)

theorem ParallelOk.spawn_step {i : ℕ} {es : List (Entry I O)} (hmain : s.main = .spawn i)
    (hi : history[i]? = some es) :
    ∃ ks', ParallelOk M history computeInfo timeout ks'
        { s with goroutines := s.goroutines ++ [.starting es], main := .spawn (i + 1) } ∧
      parallelRank history ks'
        { s with goroutines := s.goroutines ++ [.starting es], main := .spawn (i + 1) } <
        parallelRank history ks s := by
  have hlen : s.goroutines.length = i := by
    have := h.length
    rw [hmain] at this
    exact this
  have hm := h.main
  unfold MainOk at hm
  rw [hmain] at hm
  obtain ⟨-, hcount, hloop⟩ := hm
  have hlt : i < history.length := (List.getElem?_eq_some_iff.mp hi).1
  refine ⟨ks ++ [checkBound es.length + 4], ⟨h.crashed, ?_, ?_, h.slots, ?_, ?_, h.timer, h.illegal,
    ?_, fun _ _ => Or.inr ⟨_, rfl⟩⟩, ?_⟩
  · rw [List.length_append, hlen]
    rfl
  · rw [List.length_append, List.length_append, h.ranks]
    rfl
  · intro j g k hg hk
    rcases getElem?_concat_cases hg with hg | ⟨hj, rfl⟩
    · rcases getElem?_concat_cases hk with hk | ⟨hj, -⟩
      · exact h.each j g k hg hk
      · have := (List.getElem?_eq_some_iff.mp hg).1
        have := h.ranks
        omega
    · rcases getElem?_concat_cases hk with hk | ⟨-, rfl⟩
      · have := (List.getElem?_eq_some_iff.mp hk).1
        have := h.ranks
        omega
      · exact ⟨es, by rw [hj, hlen, hi], rfl, rfl⟩
  · rw [weight_concat]
    exact h.exits
  · refine ⟨hlt, hcount, hloop.kill, hloop.timedOut, ?_, hloop.results⟩
    intro j hj
    rcases getElem?_concat_cases hj with hj | ⟨-, he⟩
    · exact hloop.exited j hj
    · cases he
  · have hdrop : history.drop i = es :: history.drop (i + 1) := by
      rw [List.drop_eq_getElem_cons hlt]
      congr 1
      exact (List.getElem?_eq_some_iff.mp hi).2
    simp only [parallelRank, mainRank, hmain, hdrop, weight_concat, id]
    simp only [weight, List.map_cons, List.sum_cons]
    omega

theorem ParallelOk.spawned_step (hmain : s.main = .spawn history.length) :
    ParallelOk M history computeInfo timeout ks { s with main := .select } ∧
      parallelRank history ks { s with main := .select } < parallelRank history ks s := by
  have hlen : s.goroutines.length = history.length := by
    have := h.length
    rw [hmain] at this
    exact this
  have hm := h.main
  unfold MainOk at hm
  rw [hmain] at hm
  obtain ⟨-, hcount, hloop⟩ := hm
  refine ⟨⟨h.crashed, hlen, h.ranks, h.slots, h.each, h.exits, h.timer, h.illegal, ⟨?_, ?_⟩,
    fun _ _ => Or.inl rfl⟩, ?_⟩
  · cases history with
    | nil => exact Or.inr rfl
    | cons es history =>
        left
        show s.count < _
        rw [hcount]
        exact Nat.succ_pos _
  · exact ⟨hloop.kill, hloop.timedOut, hloop.exited, hloop.results⟩
  · simp only [parallelRank, mainRank, hmain]
    omega

/-- **An answer is received.** -/
theorem ParallelOk.receive_step {result : Bool} {rest : List Bool} (hmain : s.main = .select)
    (hres : s.results = result :: rest) :
    ParallelOk M history computeInfo timeout ks
        (received computeInfo history.length s result rest) ∧
      parallelRank history ks (received computeInfo history.length s result rest) <
        parallelRank history ks s := by
  have hlen : s.goroutines.length = history.length := by
    have := h.length
    rw [hmain] at this
    exact this
  have hm := h.main
  unfold MainOk at hm
  rw [hmain] at hm
  obtain ⟨-, hloop⟩ := hm
  have hexits := h.exits
  rw [hres, List.length_cons] at hexits
  have hillegal : (s.ok && result) = false → ∃ es ∈ history, ¬ Solv M es := by
    intro hfalse
    rcases Bool.and_eq_false_iff.mp hfalse with hok | rfl
    · exact h.illegal hok
    · exact hloop.results (by rw [hres]; exact List.mem_cons_self)
  -- a negative answer that is not received now is still in the channel
  have hexited : ∀ j : ℕ, s.goroutines[j]? = some (.exited false) →
      (s.ok && result) = false ∨ false ∈ rest := by
    intro j hj
    rcases hloop.exited j hj with hok | hin
    · exact Or.inl (by rw [hok]; rfl)
    · rw [hres, List.mem_cons] at hin
      rcases hin with rfl | hin
      · exact Or.inl (Bool.and_false _)
      · exact Or.inr hin
  have hmainok : MainOk M history computeInfo (received computeInfo history.length s result rest) ∧
      spawned history (received computeInfo history.length s result rest).main = history.length ∧
      mainRank history (received computeInfo history.length s result rest).main ≤ 3 := by
    unfold MainOk received
    dsimp only
    by_cases hkill : (!(s.ok && result) && !computeInfo) = true
    · rw [if_pos hkill]
      obtain ⟨hok, hinfo⟩ := Bool.and_eq_true_iff.mp hkill
      rw [Bool.not_eq_true'] at hok hinfo
      refine ⟨⟨⟨?_, ?_⟩, ?_⟩, rfl, Nat.le_succ 2⟩
      · intro _ htrue
        rw [hok] at htrue
        cases htrue
      · intro hi
        rw [hinfo] at hi
        cases hi
      · intro hi
        rw [hinfo] at hi
        cases hi
    · rw [if_neg hkill]
      by_cases hlast : s.count + 1 ≥ history.length
      · rw [if_pos hlast]
        refine ⟨⟨?_, fun _ hk => ?_⟩, rfl, Nat.le_add_left 1 2⟩
        · -- all goroutines have exited, and none with a negative answer
          intro _ hok es hes
          obtain ⟨j, hj⟩ := List.getElem?_of_mem hes
          obtain ⟨ok, l, hg, -, hanswered, -⟩ := h.all_exited hlen
            (by rw [hres, List.length_cons]; omega) hj
          have hrest : rest = [] := by
            have hle := weight_le_length isExited_le s.goroutines
            exact List.length_eq_zero_iff.mp (by omega)
          have htrue : ok = true := by
            by_contra hne
            rw [Bool.not_eq_true] at hne
            rw [hne] at hg
            rcases hexited j hg with hfalse | hin
            · change (s.ok && result) = true at hok
              rw [hok] at hfalse
              cases hfalse
            · rw [hrest] at hin
              cases hin
          rcases hanswered with hiff | ⟨hk, -⟩
          · exact hiff.mp htrue
          · rw [hloop.kill] at hk
            cases hk
        · change s.kill = true at hk
          rw [hloop.kill] at hk
          cases hk
      · rw [if_neg hlast]
        refine ⟨⟨Or.inl (Nat.lt_of_not_le hlast), hloop.kill, hloop.timedOut, hexited, ?_⟩, rfl,
          Nat.le_refl 3⟩
        intro hin
        exact hloop.results (by rw [hres]; exact List.mem_cons_of_mem _ hin)
  refine ⟨⟨h.crashed, hlen.trans hmainok.2.1.symm, h.ranks, h.slots, h.each, ?_, h.timer, hillegal,
    hmainok.1, ?_⟩, ?_⟩
  · show s.count + 1 + rest.length = weight isExited s.goroutines
    omega
  · intro hempty
    have hle := weight_le_length isExited_le s.goroutines
    rw [hlen, hempty, List.length_nil] at hle
    omega
  · have hrank := hmainok.2.2
    have hresults : (received computeInfo history.length s result rest).results = rest := rfl
    simp only [parallelRank, hmain, hres, hresults, List.length_cons]
    simp only [mainRank] at hrank ⊢
    omega

/-- **The timer fires.** -/
theorem ParallelOk.timer_step (hmain : s.main = .select) (htimeout : timeout = true) :
    ParallelOk M history computeInfo timeout ks { s with timedOut := true, main := .killing } ∧
      parallelRank history ks { s with timedOut := true, main := .killing } <
        parallelRank history ks s := by
  have hlen := h.length
  rw [hmain] at hlen
  refine ⟨⟨h.crashed, hlen, h.ranks, h.slots, h.each, h.exits, fun _ => htimeout, h.illegal,
    ⟨⟨nofun, fun _ _ => rfl⟩, fun _ => rfl⟩, ?_⟩, ?_⟩
  · intro _ hfalse
    rw [htimeout] at hfalse
    cases hfalse
  simp only [parallelRank, mainRank, hmain]
  omega

/-- **`kill` is set.** -/
theorem ParallelOk.kill_step (hmain : s.main = .killing) :
    ParallelOk M history computeInfo timeout ks { s with kill := true, main := .drain } ∧
      parallelRank history ks { s with kill := true, main := .drain } <
        parallelRank history ks s := by
  have hlen := h.length
  rw [hmain] at hlen
  have hm := h.main
  unfold MainOk at hm
  rw [hmain] at hm
  refine ⟨⟨h.crashed, hlen, h.ranks, h.slots, ?_, h.exits, h.timer, h.illegal, ⟨hm.1.all, ?_⟩,
    h.not_blocked (by rw [hmain]; nofun) (by rw [hmain]; nofun) _⟩, ?_⟩
  · intro j g k hg hk
    obtain ⟨es, hes, hok⟩ := h.each j g k hg hk
    have hanswered : ∀ {ok}, Answered M es s.kill ok → Answered M es true ok :=
      fun ha => ha.imp_right fun hk => ⟨rfl, hk.2⟩
    have hkept : ∀ {l}, Kept M computeInfo es s.kill l → Kept M computeInfo es true l :=
      fun hk hi => (hk hi).imp_right fun hs => ⟨rfl, hs.2⟩
    refine ⟨es, hes, ?_⟩
    cases g with
    | starting es' => exact hok
    | checking c => exact hok
    | returned ok l => exact ⟨hanswered hok.1, hkept hok.2.1, hok.2.2⟩
    | sending ok =>
        obtain ⟨ha, ⟨l, hslot, hl⟩, hk⟩ := hok
        exact ⟨hanswered ha, ⟨l, hslot, hkept hl⟩, hk⟩
    | exited ok =>
        obtain ⟨ha, ⟨l, hslot, hl⟩, hk⟩ := hok
        exact ⟨hanswered ha, ⟨l, hslot, hkept hl⟩, hk⟩
  · exact fun hi _ => hm.2 hi
  · simp only [parallelRank, mainRank, hmain]
    omega

theorem ParallelOk.drain_step {result : Bool} {rest : List Bool} (hmain : s.main = .drain)
    (hres : s.results = result :: rest) :
    ParallelOk M history computeInfo timeout ks { s with results := rest, count := s.count + 1 } ∧
      parallelRank history ks { s with results := rest, count := s.count + 1 } <
        parallelRank history ks s := by
  have hexits := h.exits
  have hm := h.main
  unfold MainOk at hm
  rw [hmain] at hm
  rw [hres, List.length_cons] at hexits
  refine ⟨⟨h.crashed, h.length, h.ranks, h.slots, h.each, ?_, h.timer, h.illegal, ?_, h.blocked⟩, ?_⟩
  · show s.count + 1 + rest.length = weight isExited s.goroutines
    omega
  · unfold MainOk
    simp only [hmain]
    exact ⟨hm.all, hm.kill⟩
  · simp only [parallelRank, hres, List.length_cons]
    omega

omit h in
/-- The partial linearizations of one partition. -/
theorem partials_ok {es : List (Entry I O)} {l : Longest} (hinfo : computeInfo = true)
    (hkill : s.kill = true → s.timedOut = true) (hkept : Kept M computeInfo es s.kill l)
    (ord : PointerOrder) : PartialsOk M es s.timedOut (partials ord (some l)) := by
  have hmem : ∀ p, p ∈ partials ord (some l) ↔ ∃ (i : ℕ) (x : ℕ × List ℕ),
      l[i]? = some (some x) ∧ x.2 = p := by
    intro p
    simp only [partials, Option.getD_some, List.mem_map, (ord.perm _).mem_iff, List.mem_dedup,
      List.mem_filterMap, id]
    constructor
    · rintro ⟨x, ⟨y, hy, rfl⟩, rfl⟩
      obtain ⟨i, hi⟩ := List.getElem?_of_mem hy
      exact ⟨i, x, hi, rfl⟩
    · rintro ⟨i, x, hi, rfl⟩
      exact ⟨x, ⟨some x, List.mem_of_getElem? hi, rfl⟩, rfl⟩
  have hsound : LongestSound M es (es.length / 2) l := by
    rcases hkept hinfo with hspec | ⟨-, hs⟩
    · exact hspec.sound
    · exact hs
  constructor
  · intro p hp
    obtain ⟨i, x, hx, rfl⟩ := (hmem p).mp hp
    exact (hsound i x hx).2
  · intro htime ids d hpath i hi
    rcases hkept hinfo with hspec | ⟨hk, -⟩
    · obtain ⟨x, hx, hle⟩ := hspec.maximal ids d hpath i hi
      exact ⟨x.2, (hmem x.2).mpr ⟨i, x, hx, rfl⟩, (hsound i x hx).1, hle⟩
    · rw [hkill hk] at htime
      cases htime

/-- **The result.** -/
theorem ParallelOk.finish_step (hmain : s.main = .drain)
    (hcount : computeInfo = true → history.length ≤ s.count) :
    ParallelOk M history computeInfo timeout ks
        { s with
          main := .finished (checkResult s.ok s.timedOut)
            (if computeInfo then
              some ⟨history, s.longest.mapIdx fun i l => partials (ord i) l⟩
            else none) } ∧
      parallelRank history ks
        { s with
          main := .finished (checkResult s.ok s.timedOut)
            (if computeInfo then
              some ⟨history, s.longest.mapIdx fun i l => partials (ord i) l⟩
            else none) } < parallelRank history ks s := by
  have hlen := h.length
  rw [hmain] at hlen
  have hm := h.main
  unfold MainOk at hm
  rw [hmain] at hm
  refine ⟨⟨h.crashed, hlen, h.ranks, h.slots, h.each, h.exits, h.timer, h.illegal,
    ⟨⟨hm.all, hm.kill⟩, rfl, ?_⟩, h.not_blocked (by rw [hmain]; nofun) (by rw [hmain]; nofun) _⟩, ?_⟩
  · intro hinfo
    rw [if_pos hinfo]
    refine ⟨_, rfl, rfl, by rw [List.length_mapIdx, h.slots], ?_⟩
    intro j es hes
    obtain ⟨ok, l, -, hslot, -, hkept⟩ := h.all_exited hlen
      (le_trans (hcount hinfo) (Nat.le_add_right _ _)) hes
    refine ⟨partials (ord j) (some l), ?_, partials_ok hinfo (hm.kill hinfo) hkept (ord j)⟩
    rw [List.getElem?_mapIdx, hslot, Option.map_some]
  · simp only [parallelRank, mainRank, hmain]
    omega

end Main

/-! ## §5. Whole runs. -/

section Runs

variable {ord : ℕ → PointerOrder} (hwf : ∀ es ∈ history, WfEntries es (es.length / 2))
  (hequal : EqualSound M)
include hwf hequal

/-- **Every step keeps the invariant and decreases the rank.** -/
theorem ParallelOk.step (h : ParallelOk M history computeInfo timeout ks s)
    (hstep : ParallelStep M ord history computeInfo timeout s s') :
    ∃ ks', ParallelOk M history computeInfo timeout ks' s' ∧
      parallelRank history ks' s' < parallelRank history ks s := by
  cases hstep with
  | spawn i es hmain hi => exact h.spawn_step hmain hi
  | spawned hmain => exact ⟨ks, h.spawned_step hmain⟩
  | start j es c hj hc => exact h.start hwf hj hc
  | startPanic j es hj hc =>
      obtain ⟨k, es', -, hes, rfl, -⟩ := h.rank_of hj
      obtain ⟨c, -, hc', -⟩ := Running.start (M := M) (hwf es (List.mem_of_getElem? hes)) computeInfo
      rw [hc] at hc'
      cases hc'
  | turn j c c' hj hc => exact h.turn hwf hequal hj hc
  | answer j c ok l hj hc => exact h.answer hwf hequal hj hc
  | turnPanic j c hj hc =>
      obtain ⟨-, -, -, -, ⟨c', -, hturn, -⟩ | ⟨ok, l, hturn, -⟩⟩ := h.turns hwf hequal hj
      all_goals
        rw [hturn] at hc
        cases hc
  | store j ok l hj => exact h.store hj
  | send j ok hj hroom => exact h.send hj
  | receive result rest hmain hres => exact ⟨ks, h.receive_step hmain hres⟩
  | timer hmain htimeout => exact ⟨ks, h.timer_step hmain htimeout⟩
  | kill hmain => exact ⟨ks, h.kill_step hmain⟩
  | drain result rest hmain hinfo hcount hres => exact ⟨ks, h.drain_step hmain hres⟩
  | finish hmain hcount => exact ⟨ks, h.finish_step hmain hcount⟩

omit hwf hequal in
theorem ParallelOk.init (hs : (checkParallel M ord history computeInfo timeout).init s) :
    ParallelOk M history computeInfo timeout [] s := by
  obtain rfl := hs
  refine ⟨rfl, rfl, rfl, List.length_replicate, nofun, rfl, nofun, nofun, ?_, fun _ _ =>
    Or.inr ⟨0, rfl⟩⟩
  exact ⟨Nat.zero_le _, rfl, rfl, rfl, nofun, nofun⟩

theorem ParallelOk.reachable
    (hreach : (checkParallel M ord history computeInfo timeout).Reachable s) :
    ∃ ks, ParallelOk M history computeInfo timeout ks s := by
  refine hreach.invariant (I := fun s => ∃ ks, ParallelOk M history computeInfo timeout ks s)
    (fun s hs => ⟨[], ParallelOk.init hs⟩) ?_
  rintro s s' - ⟨ks, h⟩ ⟨-, hstep⟩
  obtain ⟨ks', h', -⟩ := h.step hwf hequal hstep
  exact ⟨ks', h'⟩

/-- **The verdict, whatever the interleaving**: `Ok` is returned only if every partition has a
linearization, `Illegal` only if one has none, and `Unknown` only if there is a timer. -/
theorem checkParallel_verdict {result : CheckResult} {info : Option (LinearizationInfo I O)}
    (hreach : (checkParallel M ord history computeInfo timeout).Reachable s)
    (hfinished : s.main = .finished result info) :
    (result = .ok → ∀ es ∈ history, Solv M es) ∧
      (result = .illegal → ∃ es ∈ history, ¬ Solv M es) ∧
      (result = .unknown → timeout = true) := by
  obtain ⟨ks, h⟩ := ParallelOk.reachable hwf hequal hreach
  have hm := h.main
  unfold MainOk at hm
  rw [hfinished] at hm
  obtain ⟨hdecided, rfl, -⟩ := hm
  unfold checkResult
  cases hok : s.ok with
  | false => exact ⟨nofun, fun _ => h.illegal hok, nofun⟩
  | true =>
      cases htime : s.timedOut with
      | false => exact ⟨fun _ => hdecided.all htime hok, nofun, nofun⟩
      | true => exact ⟨nofun, nofun, fun _ => h.timer htime⟩

/-- **The partial linearizations, whatever the interleaving**: they are linearizable prefixes,
and unless the timer fired, every operation that is in some linearizable prefix is in one that
is as long as any. -/
theorem checkParallel_info {result : CheckResult} {info : Option (LinearizationInfo I O)}
    (hreach : (checkParallel M ord history true timeout).Reachable s)
    (hfinished : s.main = .finished result info) :
    ∃ li, info = some li ∧ li.history = history ∧
      li.partialLinearizations.length = history.length ∧
      ∀ (j : ℕ) es, history[j]? = some es → ∃ ps, li.partialLinearizations[j]? = some ps ∧
        PartialsOk M es s.timedOut ps := by
  obtain ⟨ks, h⟩ := ParallelOk.reachable hwf hequal hreach
  have hm := h.main
  unfold MainOk at hm
  rw [hfinished] at hm
  exact hm.2.2 rfl

/-- **When `longest` is read**, whatever the interleaving: in the step that makes the
information all goroutines have stored their prefixes and exited. -/
theorem checkParallel_reads {result : CheckResult} {info : Option (LinearizationInfo I O)}
    (hreach : (checkParallel M ord history true timeout).Reachable s)
    (hstep : (checkParallel M ord history true timeout).step s s')
    (hbefore : ∀ result info, s.main ≠ .finished result info)
    (hafter : s'.main = .finished result info) :
    s.goroutines.length = history.length ∧ (∀ g ∈ s.goroutines, isExited g = 1) ∧
      (∀ slot ∈ s.longest, slot.isSome = true) ∧
      info = some ⟨history, s.longest.mapIdx fun i l => partials (ord i) l⟩ := by
  obtain ⟨ks, h⟩ := ParallelOk.reachable hwf hequal hreach
  obtain ⟨-, hstep⟩ := hstep
  cases hstep with
  | finish hmain hcount =>
      have hlen := h.length
      rw [hmain] at hlen
      have hall : ∀ (j : ℕ) es, history[j]? = some es → ∃ ok l,
          s.goroutines[j]? = some (.exited ok) ∧ s.longest[j]? = some (some l) ∧
            Answered M es s.kill ok ∧ Kept M true es s.kill l :=
        fun j es hes => h.all_exited hlen (le_trans (hcount rfl) (Nat.le_add_right _ _)) hes
      refine ⟨hlen, ?_, ?_, ?_⟩
      · intro g hg
        obtain ⟨j, hj⟩ := List.getElem?_of_mem hg
        have hlt : j < history.length := by
          rw [← show s.goroutines.length = history.length from hlen]
          exact (List.getElem?_eq_some_iff.mp hj).1
        obtain ⟨ok, l, hexited, -⟩ := hall j _ (List.getElem?_eq_getElem hlt)
        rw [hj] at hexited
        rw [Option.some.inj hexited]
        rfl
      · intro slot hslot
        obtain ⟨j, hj⟩ := List.getElem?_of_mem hslot
        have hlt : j < history.length := by
          rw [← h.slots]
          exact (List.getElem?_eq_some_iff.mp hj).1
        obtain ⟨ok, l, -, hstored, -⟩ := hall j _ (List.getElem?_eq_getElem hlt)
        rw [hj] at hstored
        rw [Option.some.inj hstored]
        rfl
      · rw [if_pos rfl] at hafter
        cases hafter
        rfl
  | receive res rest hmain hres =>
      -- the loop is left for `killing` or `drain`, or goes on
      simp only [received] at hafter
      split at hafter
      · cases hafter
      · split at hafter <;> cases hafter
  | spawn | spawned | timer | kill => cases hafter
  | start | startPanic | turn | answer | turnPanic | store | send | drain =>
      exact absurd hafter (hbefore result info)

/-- How a run ends. -/
def ParallelEnd (history : List (List (Entry I O))) (timeout : Bool) (s : Parallel I O S) : Prop :=
  s.crashed = false ∧ (∀ g ∈ s.goroutines, isExited g = 1) ∧
    if history = [] ∧ timeout = false then s.main = .select
    else ∃ result info, s.main = .finished result info

/-- A goroutine that has not exited can move. -/
theorem ParallelOk.stuck_exited (h : ParallelOk M history computeInfo timeout ks s)
    (hstuck : (checkParallel M ord history computeInfo timeout).Stuck s) :
    ∀ g ∈ s.goroutines, isExited g = 1 := by
  intro g hg
  obtain ⟨j, hj⟩ := List.getElem?_of_mem hg
  obtain ⟨k, es, hk, hes, hok⟩ := h.rank_of hj
  cases g with
  | starting es' =>
      obtain ⟨rfl, -⟩ := hok
      obtain ⟨c, -, hc, -⟩ := Running.start (M := M) (hwf es' (List.mem_of_getElem? hes)) computeInfo
      exact absurd ⟨h.crashed, .start j es' c hj hc⟩ (hstuck _)
  | checking c =>
      obtain ⟨-, -, -, -, ⟨c', -, hturn, -⟩ | ⟨ok, l, hturn, -⟩⟩ := h.turns hwf hequal hj
      · exact absurd ⟨h.crashed, .turn j c c' hj hturn⟩ (hstuck _)
      · exact absurd ⟨h.crashed, .answer j c ok l hj hturn⟩ (hstuck _)
  | returned ok l => exact absurd ⟨h.crashed, .store j ok l hj⟩ (hstuck _)
  | sending ok =>
      -- the channel has room for the answer of every goroutine
      have hroom : s.results.length < history.length := by
        have hset := weight_set isExited (.exited ok) hj
        have hle := weight_le_length isExited_le (s.goroutines.set j (.exited ok))
        have hexits := h.exits
        have hlen : s.goroutines.length ≤ history.length := by
          rw [h.length]
          have hm := h.main
          unfold MainOk at hm
          cases hmain : s.main with
          | spawn i =>
              rw [hmain] at hm
              exact hm.1
          | _ => exact Nat.le_refl _
        rw [List.length_set] at hle
        simp only [isExited] at hset
        omega
      exact absurd ⟨h.crashed, .send j ok hj hroom⟩ (hstuck _)
  | exited ok => rfl

/-- **Every run of `checkParallel` ends** with a result, and no goroutine is left behind.  Only
if there is nothing to check and no timer, the main goroutine waits forever. -/
theorem checkParallel_ends (ord : ℕ → PointerOrder) (computeInfo timeout : Bool) :
    (checkParallel M ord history computeInfo timeout).EndsIn
      (ParallelEnd (S := S) history timeout) := by
  refine System.ends_of_ranked (I := fun k s => ∃ ks, ParallelOk M history computeInfo timeout ks s ∧
    parallelRank history ks s = k) (fun s hs => ⟨_, [], ParallelOk.init hs, rfl⟩) ?_ ?_
  · rintro k s s' ⟨ks, h, rfl⟩ ⟨-, hstep⟩
    obtain ⟨ks', h', hlt⟩ := h.step hwf hequal hstep
    exact ⟨_, hlt, ks', h', rfl⟩
  · rintro k s ⟨ks, h, -⟩ hstuck
    have hexited := h.stuck_exited hwf hequal hstuck
    refine ⟨h.crashed, hexited, ?_⟩
    have hexits := h.exits
    have hall := weight_eq_length hexited
    have hm := h.main
    have hlen := h.length
    unfold MainOk at hm
    cases hmain : s.main with
    | spawn i =>
        rw [hmain] at hm
        by_cases hi : i < history.length
        · exact absurd ⟨h.crashed, .spawn i _ hmain (List.getElem?_eq_getElem hi)⟩ (hstuck _)
        · obtain rfl : i = history.length := Nat.le_antisymm hm.1 (Nat.le_of_not_lt hi)
          exact absurd ⟨h.crashed, .spawned hmain⟩ (hstuck _)
    | select =>
        rw [hmain] at hm hlen
        cases hres : s.results with
        | cons result rest =>
            exact absurd ⟨h.crashed, .receive result rest hmain hres⟩ (hstuck _)
        | nil =>
            rw [hres, List.length_nil] at hexits
            have hlen' : s.goroutines.length = history.length := hlen
            have hempty : history = [] := by
              rcases hm.1 with hlt | he
              · omega
              · exact he
            have htimeout : timeout = false := by
              by_contra hne
              rw [Bool.not_eq_false] at hne
              exact absurd ⟨h.crashed, .timer hmain hne⟩ (hstuck _)
            rw [if_pos ⟨hempty, htimeout⟩]
    | killing => exact absurd ⟨h.crashed, .kill hmain⟩ (hstuck _)
    | drain =>
        rw [hmain] at hlen
        have hlen' : s.goroutines.length = history.length := hlen
        by_cases hdone : computeInfo = true → history.length ≤ s.count
        · exact absurd ⟨h.crashed, .finish hmain hdone⟩ (hstuck _)
        · push Not at hdone
          cases hres : s.results with
          | cons result rest =>
              exact absurd ⟨h.crashed, .drain result rest hmain hdone.1 hdone.2 hres⟩ (hstuck _)
          | nil =>
              rw [hres, List.length_nil] at hexits
              omega
    | finished result info =>
        rw [if_neg fun hnone => h.not_blocked (by rw [hmain]; nofun) (by rw [hmain]; nofun)
          .killing hnone.1 hnone.2 |>.elim nofun nofun]
        exact ⟨result, info, rfl⟩

end Runs

end ComputerScience.Porcupine
