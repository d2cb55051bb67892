/-
  ComputerScience.Lib.Backtrack
  ─────────────────────────────
  **DEPTH-FIRST SEARCH WITH A MEMO, as a loop with an explicit stack.**

  A problem has configurations, the moves that may be tried in each of them, the
  configuration a move leads to (if it is possible) and a test for being done.  The search
  keeps the path to the current configuration with the moves still to be tried on it, and a
  memo of every configuration it has entered; a configuration that the memo identifies with
  one of its own is not entered again.

  The memo holds configurations whose search is still going on, so "what is in the memo has
  failed" is no invariant.  What is: a configuration that was left is `Covered`, each of its
  moves leads to a configuration that one of the memo simulates.  When the search gives up,
  this holds of all of them, and a set closed in this way has no way to `done` in it.

  Main results:
    • `Search.Inv.found` — a path that is returned leads to a configuration that is done,
    • `Closed.not_solvable` — if the search gives up there is no such path,
    • `Closed.explored` — and every configuration that can be reached is simulated by one that
      was entered,
    • `Search.measure_lt` — every turn decreases a measure, so the search ends.
-/
import ComputerScience.Lib.While
import Mathlib.Data.List.Basic
import Mathlib.Tactic.Ring

namespace ComputerScience.Lib

/-! ## §1. Problems. -/

/-- A search problem over configurations `C` and moves `M`; `same c d` is the test by which
the memo identifies `c` with its entry `d`. -/
structure Problem (C M : Type*) where
  moves : C → List M
  next : C → M → Option C
  done : C → Bool
  same : C → C → Bool

variable {C M : Type*} (P : Problem C M)

/-- The moves `ms` lead from `c` to `d`. -/
def Problem.Path (c : C) : List M → C → Prop
  | [], d => c = d
  | m :: ms, d => ∃ c', m ∈ P.moves c ∧ P.next c m = some c' ∧ Problem.Path c' ms d

/-- Some path leads to a configuration that is done. -/
def Problem.Solvable (c : C) : Prop := ∃ ms d, P.Path c ms d ∧ P.done d = true

/-- `sim c d`: what can be done from `c` can be done from `d`. -/
structure Problem.Simulation (sim : C → C → Prop) : Prop where
  refl : ∀ c, sim c c
  trans : ∀ {c d e}, sim c d → sim d e → sim c e
  of_same : ∀ {c d}, P.same c d = true → sim c d
  done : ∀ {c d}, sim c d → P.done c = true → P.done d = true
  next : ∀ {c d m c'}, sim c d → m ∈ P.moves c → P.next c m = some c' →
    m ∈ P.moves d ∧ ∃ d', P.next d m = some d' ∧ sim c' d'

variable {P}

theorem Problem.Path.concat {c d e : C} {ms : List M} {m : M} (h : P.Path c ms d)
    (hm : m ∈ P.moves d) (hnext : P.next d m = some e) : P.Path c (ms ++ [m]) e := by
  induction ms generalizing c with
  | nil =>
      obtain rfl : c = d := h
      exact ⟨e, hm, hnext, rfl⟩
  | cons a ms ih =>
      obtain ⟨c', ha, hc', h'⟩ := h
      exact ⟨c', ha, hc', ih h'⟩

/-! ## §2. The search. -/

/-- The current configuration with the moves still to be tried in it, the path to it (the
last move first, each with the configuration it was made in and the moves left there), and
the memo. -/
structure Search (C M : Type*) where
  cfg : C
  todo : List M
  below : List (C × M × List M)
  memo : List C

variable (P) in
/-- The search starts at `root`. -/
def Search.start (root : C) : Search C M := ⟨root, P.moves root, [], []⟩

/-- The moves made so far. -/
def Search.path (s : Search C M) : List M := (s.below.map fun f => f.2.1).reverse

variable (P) in
/-- One turn: stop if done, try the next move, or go back. -/
def Search.turn (s : Search C M) : Search C M ⊕ Option (List M) :=
  if P.done s.cfg then .inr (some s.path)
  else
    match s.todo with
    | m :: ms =>
        match P.next s.cfg m with
        | none => .inl { s with todo := ms }
        | some c =>
            if s.memo.any (P.same c) then .inl { s with todo := ms }
            else .inl ⟨c, P.moves c, (s.cfg, m, ms) :: s.below, c :: s.memo⟩
    | [] =>
        match s.below with
        | [] => .inr none
        | (c, _, ms) :: rest => .inl ⟨c, ms, rest, s.memo⟩

/-- A move that is impossible, or leads to what the memo has, is passed over. -/
theorem Search.turn_skip {s : Search C M} {m : M} {ms : List M} (hdone : P.done s.cfg = false)
    (htodo : s.todo = m :: ms)
    (hnext : ∀ c, P.next s.cfg m = some c → s.memo.any (P.same c) = true) :
    s.turn P = .inl { s with todo := ms } := by
  unfold Search.turn
  rw [hdone, if_neg Bool.false_ne_true, htodo]
  cases hc : P.next s.cfg m with
  | none => simp only [hc]
  | some c => simp only [hc, hnext c hc, if_true]

/-- A move to a new configuration is made. -/
theorem Search.turn_enter {s : Search C M} {m : M} {ms : List M} {c : C}
    (hdone : P.done s.cfg = false) (htodo : s.todo = m :: ms) (hnext : P.next s.cfg m = some c)
    (hmemo : s.memo.any (P.same c) = false) :
    s.turn P = .inl ⟨c, P.moves c, (s.cfg, m, ms) :: s.below, c :: s.memo⟩ := by
  unfold Search.turn
  rw [hdone, if_neg Bool.false_ne_true, htodo]
  simp only [hnext, hmemo, Bool.false_eq_true, if_false]

/-- With nothing left to be tried the last move is undone. -/
theorem Search.turn_back {s : Search C M} {c : C} {m : M} {ms : List M}
    {rest : List (C × M × List M)} (hdone : P.done s.cfg = false) (htodo : s.todo = [])
    (hbelow : s.below = (c, m, ms) :: rest) : s.turn P = .inl ⟨c, ms, rest, s.memo⟩ := by
  unfold Search.turn
  rw [hdone, if_neg Bool.false_ne_true, htodo, hbelow]

/-- **What a turn can do.** -/
theorem Search.turn_cases (s : Search C M) :
    (P.done s.cfg = true ∧ s.turn P = .inr (some s.path)) ∨
    P.done s.cfg = false ∧
      ((∃ m ms, s.todo = m :: ms ∧ s.turn P = .inl { s with todo := ms } ∧
        ∀ c, P.next s.cfg m = some c → ∃ d ∈ s.memo, P.same c d = true) ∨
      (∃ m ms c, s.todo = m :: ms ∧ P.next s.cfg m = some c ∧
        s.turn P = .inl ⟨c, P.moves c, (s.cfg, m, ms) :: s.below, c :: s.memo⟩) ∨
      (∃ c m ms rest, s.todo = [] ∧ s.below = (c, m, ms) :: rest ∧
        s.turn P = .inl ⟨c, ms, rest, s.memo⟩) ∨
      (s.todo = [] ∧ s.below = [] ∧ s.turn P = .inr none)) := by
  cases hdone : P.done s.cfg with
  | true => exact Or.inl ⟨rfl, if_pos hdone⟩
  | false =>
      refine Or.inr ⟨rfl, ?_⟩
      cases htodo : s.todo with
      | nil =>
          cases hbelow : s.below with
          | nil => exact Or.inr (Or.inr (Or.inr ⟨rfl, rfl, by simp [Search.turn, *]⟩))
          | cons f rest =>
              obtain ⟨c, m, ms⟩ := f
              exact Or.inr (Or.inr (Or.inl ⟨c, m, ms, rest, rfl, rfl,
                Search.turn_back hdone htodo hbelow⟩))
      | cons m ms =>
          cases hnext : P.next s.cfg m with
          | none =>
              refine Or.inl ⟨m, ms, rfl, Search.turn_skip hdone htodo ?_, ?_⟩
              all_goals
                intro c hc
                rw [hnext] at hc
                cases hc
          | some c =>
              cases hmemo : s.memo.any (P.same c) with
              | true =>
                  have hin : ∀ c', P.next s.cfg m = some c' → s.memo.any (P.same c') = true := by
                    intro c' hc'
                    rw [hnext] at hc'
                    cases hc'
                    exact hmemo
                  exact Or.inl ⟨m, ms, rfl, Search.turn_skip hdone htodo hin,
                    fun c' hc' => List.any_eq_true.mp (hin c' hc')⟩
              | false =>
                  exact Or.inr (Or.inl ⟨m, ms, c, rfl, hnext,
                    Search.turn_enter hdone htodo hnext hmemo⟩)

/-- The search gives up with everything tried. -/
theorem Search.turn_none {s : Search C M} (h : s.turn P = .inr none) :
    P.done s.cfg = false ∧ s.todo = [] ∧ s.below = [] := by
  rcases s.turn_cases with ⟨-, heq⟩ | ⟨hdone, ⟨m, ms, -, heq, -⟩ | ⟨m, ms, c, -, -, heq⟩ |
    ⟨c, m, ms, rest, -, -, heq⟩ | ⟨htodo, hbelow, -⟩⟩
  case inr.inr.inr.inr => exact ⟨hdone, htodo, hbelow⟩
  all_goals
    rw [heq] at h
    cases h

/-! ## §3. The invariant. -/

/-- What was entered is on the stack or was left with `R`. -/
def Search.Visited (R : C → Prop) (s : Search C M) : Prop :=
  ∀ d ∈ s.memo, d = s.cfg ∨ d ∈ s.below.map Prod.fst ∨ R d

/-- A configuration is left when nothing is left to be tried in it; `R` must hold then. -/
theorem Search.Visited.next {R Q : C → Prop} {s s' : Search C M} (h : s.Visited R)
    (hturn : s.turn P = .inl s') (hmono : ∀ d, R d → Q d)
    (hback : P.done s.cfg = false → s.todo = [] → Q s.cfg) : s'.Visited Q := by
  rcases s.turn_cases with
    ⟨-, heq⟩ | ⟨hdone, ⟨m, ms, htodo, heq, hmemo⟩ | ⟨m, ms, c, htodo, hnext, heq⟩ |
      ⟨c, m, ms, rest, htodo, hbelow, heq⟩ | ⟨-, -, heq⟩⟩
  all_goals
    rw [heq] at hturn
    cases hturn
  · intro d hd
    exact (h d hd).imp_right (Or.imp_right (hmono d))
  · intro d hd
    rcases List.mem_cons.mp hd with rfl | hd
    · exact Or.inl rfl
    · right
      rcases h d hd with rfl | hin | hleft
      · exact Or.inl List.mem_cons_self
      · exact Or.inl (List.mem_cons_of_mem _ hin)
      · exact Or.inr (hmono d hleft)
  · intro d hd
    rcases h d hd with rfl | hin | hl
    · exact Or.inr (Or.inr (hback hdone htodo))
    · rw [hbelow, List.map_cons, List.mem_cons] at hin
      rcases hin with rfl | hin
      · exact Or.inl rfl
      · exact Or.inr (Or.inl hin)
    · exact Or.inr (Or.inr (hmono d hl))

variable (P) in
/-- What the move `m` of `c` leads to is simulated by an entry of the memo. -/
def Covered (sim : C → C → Prop) (memo : List C) (c : C) (m : M) : Prop :=
  ∀ c', P.next c m = some c' → ∃ d ∈ memo, sim c' d

variable (P) in
/-- The moves of `c` that are not to be tried any more are covered. -/
structure FrameOk (sim : C → C → Prop) (memo : List C) (c : C) (todo : List M) : Prop where
  subset : ∀ m ∈ todo, m ∈ P.moves c
  covered : ∀ m ∈ P.moves c, m ∈ todo ∨ Covered P sim memo c m

variable (P) in
/-- The stack leads from `root` to `c`. -/
def Stacked (root : C) : List (C × M × List M) → C → Prop
  | [], c => root = c
  | (c', m, _) :: rest, c => m ∈ P.moves c' ∧ P.next c' m = some c ∧ Stacked root rest c'

variable (P) in
/-- A configuration that was entered and left: it is not done, and all its moves are
covered. -/
def Left (sim : C → C → Prop) (memo : List C) (d : C) : Prop :=
  P.done d = false ∧ ∀ m ∈ P.moves d, Covered P sim memo d m

variable (P) in
/-- **The invariant.** -/
structure Search.Inv (sim : C → C → Prop) (root : C) (s : Search C M) : Prop where
  stacked : Stacked P root s.below s.cfg
  frame : FrameOk P sim s.memo s.cfg s.todo
  frames : ∀ f ∈ s.below, FrameOk P sim s.memo f.1 f.2.2
  memo : s.Visited (Left P sim s.memo)

variable {sim : C → C → Prop} {root : C} {memo memo' : List C}

theorem Covered.mono {c : C} {m : M} (h : Covered P sim memo c m) (hsub : memo ⊆ memo') :
    Covered P sim memo' c m := by
  intro c' hc'
  obtain ⟨d, hd, hsim⟩ := h c' hc'
  exact ⟨d, hsub hd, hsim⟩

theorem FrameOk.mono {c : C} {todo : List M} (h : FrameOk P sim memo c todo)
    (hsub : memo ⊆ memo') : FrameOk P sim memo' c todo :=
  ⟨h.subset, fun m hm => (h.covered m hm).imp_right fun hc => hc.mono hsub⟩

theorem Left.mono {d : C} (h : Left P sim memo d) (hsub : memo ⊆ memo') : Left P sim memo' d :=
  ⟨h.1, fun m hm => (h.2 m hm).mono hsub⟩

/-- The first move of a frame becomes covered. -/
theorem FrameOk.tail {c : C} {m : M} {ms : List M} (h : FrameOk P sim memo c (m :: ms))
    (hm : Covered P sim memo c m) : FrameOk P sim memo c ms := by
  refine ⟨fun x hx => h.subset x (List.mem_cons_of_mem m hx), ?_⟩
  intro x hx
  rcases h.covered x hx with hin | hcov
  · rcases List.mem_cons.mp hin with rfl | hin
    · exact Or.inr hm
    · exact Or.inl hin
  · exact Or.inr hcov

theorem Stacked.path {below : List (C × M × List M)} {c : C} (h : Stacked P root below c) :
    P.Path root (below.map fun f => f.2.1).reverse c := by
  induction below generalizing c with
  | nil => exact h
  | cons f rest ih =>
      obtain ⟨c', m, ms⟩ := f
      obtain ⟨hm, hnext, hrest⟩ := h
      rw [List.map_cons, List.reverse_cons]
      exact (ih hrest).concat hm hnext

theorem Search.Inv.start (sim : C → C → Prop) (root : C) :
    Search.Inv P sim root (Search.start P root) :=
  ⟨rfl, ⟨fun _ hm => hm, fun _ hm => Or.inl hm⟩, nofun, nofun⟩

/-- The configuration at hand, once nothing is left to be tried. -/
theorem Search.Inv.left {s : Search C M} (h : Search.Inv P sim root s)
    (hdone : P.done s.cfg = false) (htodo : s.todo = []) : Left P sim s.memo s.cfg := by
  refine ⟨hdone, ?_⟩
  intro m hm
  rcases h.frame.covered m hm with hin | hcov
  · rw [htodo] at hin
    cases hin
  · exact hcov

/-- **A turn keeps the invariant.** -/
theorem Search.Inv.next (hsim : P.Simulation sim) {s s' : Search C M}
    (h : Search.Inv P sim root s) (hturn : s.turn P = .inl s') : Search.Inv P sim root s' := by
  rcases s.turn_cases with
    ⟨-, heq⟩ | ⟨hdone, ⟨m, ms, htodo, heq, hmemo⟩ | ⟨m, ms, c, htodo, hnext, heq⟩ |
      ⟨c, m, ms, rest, htodo, hbelow, heq⟩ | ⟨-, -, heq⟩⟩
  · rw [heq] at hturn
    cases hturn
  · -- the move is impossible, or the memo has what it leads to
    rw [heq] at hturn
    cases hturn
    have hframe := h.frame
    rw [htodo] at hframe
    refine ⟨h.stacked, hframe.tail ?_, h.frames, h.memo⟩
    intro c hc
    obtain ⟨d, hd, hsame⟩ := hmemo c hc
    exact ⟨d, hd, hsim.of_same hsame⟩
  · -- a new configuration
    have hsub : s.memo ⊆ c :: s.memo := List.subset_cons_self c s.memo
    have hmemo := h.memo.next (Q := Left P sim (c :: s.memo)) hturn (fun d hd => hd.mono hsub)
      fun hd ht => (h.left hd ht).mono hsub
    rw [heq] at hturn
    cases hturn
    have hframe := h.frame
    rw [htodo] at hframe
    have hcov : Covered P sim (c :: s.memo) s.cfg m := by
      intro c' hc'
      rw [hnext] at hc'
      cases hc'
      exact ⟨c, List.mem_cons_self, hsim.refl c⟩
    refine ⟨⟨hframe.subset m List.mem_cons_self, hnext, h.stacked⟩,
      ⟨fun _ hx => hx, fun _ hx => Or.inl hx⟩, ?_, hmemo⟩
    intro f hf
    rcases List.mem_cons.mp hf with rfl | hf
    · exact (hframe.mono hsub).tail hcov
    · exact (h.frames f hf).mono hsub
  · -- back to the configuration below
    have hmemo := h.memo.next hturn (fun _ hd => hd) h.left
    rw [heq] at hturn
    cases hturn
    have hstacked := h.stacked
    rw [hbelow] at hstacked
    refine ⟨hstacked.2.2, h.frames (c, m, ms) (by rw [hbelow]; exact List.mem_cons_self), ?_,
      hmemo⟩
    intro f hf
    exact h.frames f (by rw [hbelow]; exact List.mem_cons_of_mem _ hf)
  · rw [heq] at hturn
    cases hturn

/-! ## §4. What the search has established when it stops. -/

/-- **A path that is returned** leads to a configuration that is done. -/
theorem Search.Inv.found {s : Search C M} (h : Search.Inv P sim root s) {ms : List M}
    (hturn : s.turn P = .inr (some ms)) :
    ms = s.path ∧ P.Path root ms s.cfg ∧ P.done s.cfg = true := by
  rcases s.turn_cases with ⟨hdone, heq⟩ | ⟨-, ⟨m, ms, -, heq, -⟩ | ⟨m, ms, c, -, -, heq⟩ |
    ⟨c, m, ms, rest, -, -, heq⟩ | ⟨-, -, heq⟩⟩
  · rw [heq] at hturn
    cases hturn
    exact ⟨rfl, h.stacked.path, hdone⟩
  all_goals
    rw [heq] at hturn
    cases hturn

variable (P) in
/-- Everything that was entered was left. -/
def Closed (sim : C → C → Prop) (root : C) (memo : List C) : Prop :=
  ∀ d, d = root ∨ d ∈ memo → Left P sim memo d

/-- When the search gives up, only the root is on the stack. -/
theorem Search.Inv.visited_none {s : Search C M} (h : Search.Inv P sim root s)
    (hturn : s.turn P = .inr none) {R : C → Prop} (hv : s.Visited R) :
    s.cfg = root ∧ ∀ d ∈ s.memo, d = root ∨ R d := by
  obtain ⟨-, -, hbelow⟩ := Search.turn_none hturn
  have hstacked := h.stacked
  rw [hbelow] at hstacked
  obtain rfl : root = s.cfg := hstacked
  refine ⟨rfl, ?_⟩
  intro d hd
  rcases hv d hd with rfl | hin | hR
  · exact Or.inl rfl
  · rw [hbelow] at hin
    cases hin
  · exact Or.inr hR

/-- **A search that gives up** has left everything. -/
theorem Search.Inv.closed {s : Search C M} (h : Search.Inv P sim root s)
    (hturn : s.turn P = .inr none) : Closed P sim root s.memo := by
  obtain ⟨hdone, htodo, -⟩ := Search.turn_none hturn
  obtain ⟨hcfg, hmemo⟩ := h.visited_none hturn h.memo
  have hroot := h.left hdone htodo
  rw [hcfg] at hroot
  rintro d (rfl | hd)
  · exact hroot
  · rcases hmemo d hd with rfl | hleft
    · exact hroot
    · exact hleft

/-- In a closed set everything that can be reached is simulated. -/
theorem Closed.simulated (hsim : P.Simulation sim) (h : Closed P sim root memo) {ms : List M} :
    ∀ {c d e : C}, P.Path c ms d → e = root ∨ e ∈ memo → sim c e →
      ∃ e', (e' = root ∨ e' ∈ memo) ∧ sim d e' := by
  induction ms with
  | nil =>
      intro c d e hpath he hce
      obtain rfl : c = d := hpath
      exact ⟨e, he, hce⟩
  | cons m ms ih =>
      intro c d e hpath he hce
      obtain ⟨c', hm, hnext, hpath⟩ := hpath
      obtain ⟨hme, e', he', hce'⟩ := hsim.next hce hm hnext
      obtain ⟨f, hf, hef⟩ := (h e he).2 m hme e' he'
      exact ih hpath (Or.inr hf) (hsim.trans hce' hef)

/-- **Every configuration that can be reached** is simulated by one that was entered. -/
theorem Closed.explored (hsim : P.Simulation sim) (h : Closed P sim root memo) {ms : List M}
    {d : C} (hpath : P.Path root ms d) : ∃ e, (e = root ∨ e ∈ memo) ∧ sim d e :=
  h.simulated hsim hpath (Or.inl rfl) (hsim.refl root)

/-- **There is no solution.** -/
theorem Closed.not_solvable (hsim : P.Simulation sim) (h : Closed P sim root memo) :
    ¬ P.Solvable root := by
  rintro ⟨ms, d, hpath, hdone⟩
  obtain ⟨e, he, hde⟩ := h.explored hsim hpath
  exact absurd (hsim.done hde hdone) (Bool.not_eq_true _ ▸ (h e he).1)

/-! ## §5. The search ends. -/

variable (P) in
/-- Moves decrease `rank`, and there are fewer than `width - 1` of them. -/
structure Ranked (rank : C → ℕ) (width : ℕ) : Prop where
  next : ∀ {c m c'}, m ∈ P.moves c → P.next c m = some c' → rank c' < rank c
  width : ∀ c, (P.moves c).length + 1 < width

/-- What is left to be tried, the more the higher up. -/
def Search.measure (rank : C → ℕ) (width : ℕ) (s : Search C M) : ℕ :=
  (s.todo.length + 1) * width ^ rank s.cfg +
    (s.below.map fun f => (f.2.2.length + 1) * width ^ rank f.1).sum

/-- **Every turn decreases the measure.** -/
theorem Search.measure_lt {rank : C → ℕ} {width : ℕ} (hr : Ranked P rank width)
    {s s' : Search C M} (h : Search.Inv P sim root s) (hturn : s.turn P = .inl s') :
    s'.measure rank width < s.measure rank width := by
  have hwidth : 0 < width := by
    have := hr.width root
    omega
  have hpos : ∀ c, 0 < width ^ rank c := fun c => Nat.pow_pos hwidth
  rcases s.turn_cases with
    ⟨-, heq⟩ | ⟨-, ⟨m, ms, htodo, heq, -⟩ | ⟨m, ms, c, htodo, hnext, heq⟩ |
      ⟨c, m, ms, rest, htodo, hbelow, heq⟩ | ⟨-, -, heq⟩⟩
  · rw [heq] at hturn
    cases hturn
  · rw [heq] at hturn
    cases hturn
    unfold Search.measure
    dsimp only
    rw [htodo, List.length_cons, Nat.add_mul (ms.length + 1) 1]
    have := hpos s.cfg
    omega
  · rw [heq] at hturn
    cases hturn
    -- the moves of the new configuration weigh less than the one that led to it
    have hm : m ∈ P.moves s.cfg := h.frame.subset m (by rw [htodo]; exact List.mem_cons_self)
    have hnew : ((P.moves c).length + 1) * width ^ rank c < width ^ rank s.cfg :=
      calc ((P.moves c).length + 1) * width ^ rank c < width * width ^ rank c :=
            Nat.mul_lt_mul_of_pos_right (hr.width c) (hpos c)
        _ = width ^ (rank c + 1) := by rw [Nat.pow_succ, Nat.mul_comm]
        _ ≤ width ^ rank s.cfg := Nat.pow_le_pow_right hwidth (hr.next hm hnext)
    have hsplit := Nat.add_one_mul (ms.length + 1) (width ^ rank s.cfg)
    simp only [Search.measure, htodo, List.length_cons, List.map_cons, List.sum_cons]
    omega
  · rw [heq] at hturn
    cases hturn
    have := hpos s.cfg
    simp only [Search.measure, htodo, hbelow, List.map_cons, List.sum_cons, List.length_nil]
    omega
  · rw [heq] at hturn
    cases hturn

/-- The measure of the start. -/
theorem Search.measure_start {rank : C → ℕ} {width : ℕ} (hr : Ranked P rank width) (root : C) :
    (Search.start P root).measure rank width < width ^ (rank root + 1) := by
  have hpos : 0 < width ^ rank root := Nat.pow_pos (by have := hr.width root; omega)
  unfold Search.measure Search.start
  rw [List.map_nil, List.sum_nil, Nat.add_zero, Nat.pow_succ, Nat.mul_comm _ width]
  exact Nat.mul_lt_mul_of_pos_right (hr.width root) hpos

end ComputerScience.Lib
