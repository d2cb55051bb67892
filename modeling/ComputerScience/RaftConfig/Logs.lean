/-
  ComputerScience.RaftConfig.Logs
  ───────────────────────────────
  **WHAT THE RAFT TESTER RECORDS AND CHECKS** (`raft/config.go`, `checkLogs` and
  `applier`).

  One goroutine per started server reads its apply channel.  A command is compared with
  what every server has recorded at its index and is then recorded, under `cfg.mu`; the
  error, if there is one, is looked at after the lock is released and ends the process.
  The Raft under test is open: any message may arrive at any time, on the channel of any
  instance, an old one or a new one.

  Main results:
    • `checkLogs_err` — when `checkLogs` finds no mismatch,
    • `ApplierInv.step` — what one step of one goroutine preserves in a run without error,
    • `applier_sound` — agreement of the logs over whole runs.
-/
import ComputerScience.Lib.Pool
import ComputerScience.Lib.TransitionSystem
import Mathlib.Logic.Function.Basic
import Mathlib.Order.Basic

namespace ComputerScience.RaftConfig

open ComputerScience.Lib

/-! ## §1. Logs, errors, messages. -/

/-- The fields of `config` that the apply channel readers use.  `V` are the commands. -/
structure Logs (V : Type) where
  n : ℕ
  /-- `cfg.logs[i]`: copy of each server's committed entries. -/
  logs : ℕ → ℤ → Option V
  lastApplied : ℕ → ℤ
  maxIndex : ℤ

/-- The errors of the tester, with the values that go into their texts. -/
inductive ApplyError (V : Type) where
  | mismatch (index : ℤ) (i : ℕ) (command : V) (j : ℕ) (old : V)
  | outOfOrder (i : ℕ) (index : ℤ)
  | unexpectedIndex (i : ℕ) (expected index : ℤ)
  | nilSnapshot
  | decode
  | snapshotIndex (i : ℕ)

/-- `err_msg`, with `fmt` for the `%v` of a command. -/
def ApplyError.text {V : Type} (fmt : V → String) : ApplyError V → String
  | .mismatch index i command j old =>
      "commit index=" ++ toString index ++ " server=" ++ toString i ++ " " ++ fmt command ++
        " != server=" ++ toString j ++ " " ++ fmt old
  | .outOfOrder i index => "server " ++ toString i ++ " apply out of order " ++ toString index
  | .unexpectedIndex i expected index =>
      "server " ++ toString i ++ " apply out of order, expected index " ++ toString expected ++
        ", got " ++ toString index
  | .nilSnapshot => "nil snapshot"
  | .decode => "snapshot Decode() error"
  | .snapshotIndex i => "server " ++ toString i ++ " snapshot doesn't match m.SnapshotIndex"

theorem append_ne_empty {a : String} (h : a ≠ "") (b : String) : a ++ b ≠ "" :=
  fun hab => h (String.append_eq_empty_iff.mp hab).1

/-- Every error has a text, so `err_msg != ""` is "there is an error". -/
theorem ApplyError.text_ne_empty {V : Type} (fmt : V → String) (e : ApplyError V) :
    e.text fmt ≠ "" := by
  cases e with
  | nilSnapshot =>
      show "nil snapshot" ≠ ""
      decide
  | decode =>
      show "snapshot Decode() error" ≠ ""
      decide
  | _ =>
      unfold ApplyError.text
      repeat apply append_ne_empty
      decide

/-- What a snapshot decodes to, if it does. -/
inductive Snapshot (V : Type) where
  | undecodable
  | encoded (lastIncludedIndex : ℤ) (xlog : List V)

/-- `ApplyMsg`; a nil `Snapshot` is `none`. -/
structure ApplyMsg (V : Type) where
  CommandValid : Bool
  Command : V
  CommandIndex : ℤ
  SnapshotValid : Bool
  Snapshot : Option (RaftConfig.Snapshot V)
  SnapshotIndex : ℤ

variable {V : Type} [DecidableEq V]

/-- The comparison with the log of server `j`. -/
def compare (cfg : Logs V) (i : ℕ) (m : ApplyMsg V) (err_msg : Option (ApplyError V)) (j : ℕ) :
    Option (ApplyError V) :=
  match cfg.logs j m.CommandIndex with
  | some old =>
      if old ≠ m.Command then some (.mismatch m.CommandIndex i m.Command j old) else err_msg
  | none => err_msg

/-- `checkLogs`: the error, `prevok`, and the configuration after. -/
def checkLogs (cfg : Logs V) (i : ℕ) (m : ApplyMsg V) : Option (ApplyError V) × Bool × Logs V :=
  let err_msg := (List.range cfg.n).foldl (compare cfg i m) none
  let prevok := (cfg.logs i (m.CommandIndex - 1)).isSome
  (err_msg, prevok, { cfg with
    logs := Function.update cfg.logs i
      (Function.update (cfg.logs i) m.CommandIndex (some m.Command))
    maxIndex := if m.CommandIndex > cfg.maxIndex then m.CommandIndex else cfg.maxIndex })

/-- The error of a command that went through `checkLogs`. -/
def judge (i : ℕ) (m : ApplyMsg V) (err_msg : Option (ApplyError V)) (prevok : Bool) :
    Option (ApplyError V) :=
  if m.CommandIndex > 1 ∧ prevok = false then some (.outOfOrder i m.CommandIndex) else err_msg

/-! ## §2. `checkLogs`. -/

/-- A loop over servers keeps an error it has, and makes one out of a mismatch. -/
theorem foldl_compare (cfg : Logs V) (i : ℕ) (m : ApplyMsg V) (js : List ℕ)
    (err_msg : Option (ApplyError V)) :
    js.foldl (compare cfg i m) err_msg = none ↔
      err_msg = none ∧ ∀ j ∈ js, ∀ old, cfg.logs j m.CommandIndex = some old → old = m.Command := by
  induction js generalizing err_msg with
  | nil => simp
  | cons j js ih =>
      rw [List.foldl_cons, ih]
      unfold compare
      cases hold : cfg.logs j m.CommandIndex with
      | none => simp [hold]
      | some old =>
          by_cases hne : old = m.Command
          · simp [hold, hne]
          · simp [hold, hne]

/-- **`checkLogs` finds no mismatch** exactly if every server that has recorded the index
has recorded this command. -/
theorem checkLogs_err (cfg : Logs V) (i : ℕ) (m : ApplyMsg V) :
    (checkLogs cfg i m).1 = none ↔
      ∀ j < cfg.n, ∀ old, cfg.logs j m.CommandIndex = some old → old = m.Command := by
  show (List.range cfg.n).foldl (compare cfg i m) none = none ↔ _
  rw [foldl_compare]
  simp only [true_and, List.mem_range]

/-- What `checkLogs` records. -/
theorem checkLogs_logs (cfg : Logs V) (i : ℕ) (m : ApplyMsg V) (k : ℕ) (idx : ℤ) :
    (checkLogs cfg i m).2.2.logs k idx =
      if k = i ∧ idx = m.CommandIndex then some m.Command else cfg.logs k idx := by
  show Function.update cfg.logs i _ k idx = _
  by_cases hk : k = i
  · by_cases hidx : idx = m.CommandIndex
    · rw [if_pos ⟨hk, hidx⟩, hk, hidx, Function.update_self, Function.update_self]
    · rw [if_neg (fun h => hidx h.2), hk, Function.update_self, Function.update_of_ne hidx]
  · rw [if_neg (fun h => hk h.1), Function.update_of_ne hk]

/-- Any two servers that have recorded `idx` have recorded the same command there. -/
def AgreeAt (cfg : Logs V) (idx : ℤ) : Prop :=
  ∀ i < cfg.n, ∀ j < cfg.n, ∀ v w, cfg.logs i idx = some v → cfg.logs j idx = some w → v = w

/-- Without an error `checkLogs` keeps the agreement. -/
theorem AgreeAt.checkLogs {cfg : Logs V} {idx : ℤ} (h : AgreeAt cfg idx) {i : ℕ}
    {m : ApplyMsg V} (herr : (RaftConfig.checkLogs cfg i m).1 = none) :
    AgreeAt (RaftConfig.checkLogs cfg i m).2.2 idx := by
  rw [checkLogs_err] at herr
  intro a ha b hb v w hv hw
  rw [checkLogs_logs] at hv hw
  split at hv
  next hai =>
    split at hw
    next => exact (Option.some.inj hv).symm.trans (Option.some.inj hw)
    next => rw [herr b hb w (by rw [← hai.2]; exact hw)]; exact (Option.some.inj hv).symm
  next =>
    split at hw
    next hbi => rw [herr a ha v (by rw [← hbi.2]; exact hv)]; exact Option.some.inj hw
    next => exact h a ha b hb v w hv hw

/-- Without an error what is recorded stays recorded. -/
theorem checkLogs_keeps {cfg : Logs V} {i : ℕ} {m : ApplyMsg V}
    (herr : (checkLogs cfg i m).1 = none) {k : ℕ} (hk : k < cfg.n) {idx : ℤ} {v : V}
    (h : cfg.logs k idx = some v) : (checkLogs cfg i m).2.2.logs k idx = some v := by
  rw [checkLogs_err] at herr
  rw [checkLogs_logs]
  split
  next hki => rw [herr k hk v (by rw [← hki.2]; exact h)]
  next => exact h

/-! ## §3. The goroutines in `applier`. -/

/-- Where a goroutine in `applier` is. -/
inductive ApplierPc (V : Type) where
  /-- at `for m := range applyCh` -/
  | ranging
  /-- before `cfg.mu.Lock()`, with a command -/
  | checking (m : ApplyMsg V)
  /-- after `cfg.mu.Unlock()`, before its tests -/
  | checked (m : ApplyMsg V) (err_msg : Option (ApplyError V)) (prevok : Bool)

/-- A goroutine that reads the apply channel of an instance of server `server`. -/
structure Reader (P : Type) where
  server : ℕ
  pc : P

/-- The tester with its goroutines, which are at places `P` of their code. -/
structure Tester (V P : Type) where
  cfg : Logs V
  readers : List (Reader P)
  /-- The error of the `log.Fatalf` that has ended the process. -/
  fatal : Option (ApplyError V)

/-- No processed message has yielded an error; `yields` is the error of the message that a
goroutine has in hand. -/
def Clean {P : Type} (yields : Reader P → Option (ApplyError V)) (s : Tester V P) : Prop :=
  s.fatal = none ∧ ∀ a ∈ s.readers, yields a = none

omit [DecidableEq V] in
/-- If no goroutine has an error in hand after one of them moved, this one has none. -/
theorem Clean.moved {P : Type} {yields : Reader P → Option (ApplyError V)}
    {readers : List (Reader P)} {a : ℕ} {y z : Reader P} (ha : readers[a]? = some y)
    (hall : ∀ b ∈ readers.set a z, yields b = none) : yields z = none :=
  hall z (List.mem_of_getElem? (List.getElem?_set_self (List.getElem?_eq_some_iff.mp ha).1))

omit [DecidableEq V] in
/-- If no goroutine has an error in hand after one of them moved, and the move did not
drop one, none had an error in hand before. -/
theorem Clean.of_set {P : Type} {yields : Reader P → Option (ApplyError V)} {s : Tester V P}
    (hs : s.fatal = none) {a : ℕ} {y z : Reader P} (ha : s.readers[a]? = some y)
    (hall : ∀ b ∈ s.readers.set a z, yields b = none)
    (hyz : yields z = none → yields y = none) : Clean yields s := by
  refine ⟨hs, fun x hx => ?_⟩
  obtain ⟨k, hk⟩ := List.getElem?_of_mem hx
  rcases getElem?_set_of_some z ha hk with ⟨_, rfl, _⟩ | ⟨_, hk'⟩
  · exact hyz (Clean.moved ha hall)
  · exact hall x (List.mem_of_getElem? hk')

/-- One step of a goroutine, or the start of one by `start1`. -/
inductive ApplierStep (s : Tester V (ApplierPc V)) : Tester V (ApplierPc V) → Prop where
  | start (i : ℕ) (hi : i < s.cfg.n) :
      ApplierStep s { s with readers := s.readers ++ [⟨i, .ranging⟩] }
  | ignore (a : ℕ) (i : ℕ) (m : ApplyMsg V) (h : s.readers[a]? = some ⟨i, .ranging⟩)
      (hm : m.CommandValid = false) : ApplierStep s s
  | receive (a : ℕ) (i : ℕ) (m : ApplyMsg V) (h : s.readers[a]? = some ⟨i, .ranging⟩)
      (hm : m.CommandValid = true) :
      ApplierStep s { s with readers := s.readers.set a ⟨i, .checking m⟩ }
  | check (a : ℕ) (i : ℕ) (m : ApplyMsg V) (h : s.readers[a]? = some ⟨i, .checking m⟩) :
      ApplierStep s { s with
        cfg := (checkLogs s.cfg i m).2.2
        readers := s.readers.set a
          ⟨i, .checked m (checkLogs s.cfg i m).1 (checkLogs s.cfg i m).2.1⟩ }
  | pass (a : ℕ) (i : ℕ) (m : ApplyMsg V) (err_msg : Option (ApplyError V)) (prevok : Bool)
      (h : s.readers[a]? = some ⟨i, .checked m err_msg prevok⟩)
      (herr : judge i m err_msg prevok = none) :
      ApplierStep s { s with readers := s.readers.set a ⟨i, .ranging⟩ }
  | fail (a : ℕ) (i : ℕ) (m : ApplyMsg V) (err_msg : Option (ApplyError V)) (prevok : Bool)
      (h : s.readers[a]? = some ⟨i, .checked m err_msg prevok⟩) (e : ApplyError V)
      (herr : judge i m err_msg prevok = some e) : ApplierStep s { s with fatal := some e }

/-- The logs of `make_config`. -/
def Logs.blank (n : ℕ) : Logs V := ⟨n, fun _ _ => none, fun _ => 0, 0⟩

/-- The tester of `make_config` with `n` servers and empty logs.  A `log.Fatalf` ends the
process. -/
def applierSystem (V : Type) [DecidableEq V] (n : ℕ) : System (Tester V (ApplierPc V)) where
  init s := s = ⟨.blank n, [], none⟩
  step s s' := s.fatal = none ∧ ApplierStep s s'

/-- The error that the message in hand yields. -/
def Reader.yields (a : Reader (ApplierPc V)) : Option (ApplyError V) :=
  match a.pc with
  | .checked m err_msg prevok => judge a.server m err_msg prevok
  | _ => none

/-! ## §4. Runs without error. -/

/-- What holds at every moment of a run without error. -/
structure ApplierInv (s : Tester V (ApplierPc V)) : Prop where
  agree : ∀ idx, AgreeAt s.cfg idx
  /-- Logs have no holes. -/
  pred : ∀ i < s.cfg.n, ∀ idx > 1, (s.cfg.logs i idx).isSome → (s.cfg.logs i (idx - 1)).isSome

/-- An error stays: a state without one was reached from one without. -/
theorem Clean.before {s s' : Tester V (ApplierPc V)} (h : ApplierStep s s')
    (hs : s.fatal = none) (hclean : Clean Reader.yields s') : Clean Reader.yields s := by
  cases h with
  | start i hi => exact ⟨hs, fun x hx => hclean.2 x (List.mem_append_left _ hx)⟩
  | ignore a i m h hm => exact hclean
  | receive a i m h hm => exact Clean.of_set hs h hclean.2 (fun _ => rfl)
  | check a i m h => exact Clean.of_set hs h hclean.2 (fun _ => rfl)
  | pass a i m err_msg prevok h herr => exact Clean.of_set hs h hclean.2 (fun _ => herr)
  | fail a i m err_msg prevok h e herr => exact absurd hclean.1 (by simp)

omit [DecidableEq V] in
/-- A command that yields no error: `checkLogs` found none, and the index before it is
recorded. -/
theorem judge_none {i : ℕ} {m : ApplyMsg V} {err_msg : Option (ApplyError V)} {prevok : Bool}
    (h : judge i m err_msg prevok = none) :
    err_msg = none ∧ (m.CommandIndex > 1 → prevok = true) := by
  unfold judge at h
  split at h
  next => cases h
  next hno =>
    refine ⟨h, fun hidx => ?_⟩
    by_contra hprev
    exact hno ⟨hidx, by simpa using hprev⟩

/-- **One step** of a run without error keeps the agreement and the logs without holes,
and changes nothing that is recorded. -/
theorem ApplierInv.step {s s' : Tester V (ApplierPc V)} (hs : ApplierInv s) (h : ApplierStep s s')
    (hclean : Clean Reader.yields s') :
    ApplierInv s' ∧ s'.cfg.n = s.cfg.n ∧
      ∀ i < s.cfg.n, ∀ idx v, s.cfg.logs i idx = some v → s'.cfg.logs i idx = some v := by
  cases h with
  | check a i m h =>
      -- the message in hand is the one just checked
      obtain ⟨herr, hprev⟩ := judge_none (Clean.moved h hclean.2)
      refine ⟨⟨fun idx => (hs.agree idx).checkLogs herr, ?_⟩, rfl, fun k hk idx v hv =>
        checkLogs_keeps herr hk hv⟩
      intro k hk idx hidx hrec
      have hkeep : ∀ idx, (s.cfg.logs k idx).isSome →
          ((checkLogs s.cfg i m).2.2.logs k idx).isSome := by
        intro idx hsome
        obtain ⟨v, hv⟩ := Option.isSome_iff_exists.mp hsome
        rw [checkLogs_keeps herr hk hv]
        rfl
      refine hkeep (idx - 1) ?_
      -- the new entry has a predecessor by the test, an old one by the invariant
      dsimp only at hrec
      rw [checkLogs_logs] at hrec
      split at hrec
      next hki =>
        rw [hki.1, hki.2]
        exact hprev (by rw [← hki.2]; exact hidx)
      next => exact hs.pred k hk idx hidx hrec
  | _ => exact ⟨⟨hs.agree, hs.pred⟩, rfl, fun _ _ _ _ hv => hv⟩

theorem Clean.before_run {n : ℕ} {s s' : Tester V (ApplierPc V)}
    (h : Relation.ReflTransGen (applierSystem V n).step s s') (hclean : Clean Reader.yields s') :
    Clean Reader.yields s := by
  induction h with
  | refl => exact hclean
  | tail _ hstep ih => exact ih (hclean.before hstep.2 hstep.1)

/-- **A run without error** out of a state with the invariant. -/
theorem ApplierInv.run {n : ℕ} {s s' : Tester V (ApplierPc V)} (hs : ApplierInv s)
    (h : Relation.ReflTransGen (applierSystem V n).step s s') (hclean : Clean Reader.yields s') :
    ApplierInv s' ∧ s'.cfg.n = s.cfg.n ∧
      ∀ i < s.cfg.n, ∀ idx v, s.cfg.logs i idx = some v → s'.cfg.logs i idx = some v := by
  induction h with
  | refl => exact ⟨hs, rfl, fun _ _ _ _ hv => hv⟩
  | tail _ hstep ih =>
      obtain ⟨hmid, hn, hkeep⟩ := ih (hclean.before hstep.2 hstep.1)
      obtain ⟨hs', hn', hkeep'⟩ := hmid.step hstep.2 hclean
      refine ⟨hs', hn'.trans hn, fun i hi idx v hv => ?_⟩
      exact hkeep' i (by rw [hn]; exact hi) idx v (hkeep i hi idx v hv)

theorem ApplierInv.reachable {n : ℕ} {s : Tester V (ApplierPc V)}
    (h : (applierSystem V n).Reachable s) (hclean : Clean Reader.yields s) :
    ApplierInv s ∧ s.cfg.n = n := by
  obtain ⟨s₀, rfl, hrun⟩ := h
  have h0 : ApplierInv (⟨.blank n, [], none⟩ : Tester V (ApplierPc V)) := by
    constructor
    · intro idx i _ j _ v w hv
      cases hv
    · intro i _ idx _ hrec
      cases hrec
  obtain ⟨hs, hn, -⟩ := h0.run hrun hclean
  exact ⟨hs, hn⟩

/-- **Soundness of the tester without snapshots**: in every run in which no processed
message yields an error, at every moment any two logs hold equal commands at every index
present in both, every recorded index greater than `1` has its predecessor recorded in the
same log, and what was recorded at an earlier moment is still recorded. -/
theorem applier_sound {n : ℕ} {s : Tester V (ApplierPc V)} (h : (applierSystem V n).Reachable s)
    (hclean : Clean Reader.yields s) :
    (∀ i < n, ∀ j < n, ∀ idx v w,
      s.cfg.logs i idx = some v → s.cfg.logs j idx = some w → v = w) ∧
    (∀ i < n, ∀ idx > 1, (s.cfg.logs i idx).isSome → (s.cfg.logs i (idx - 1)).isSome) ∧
    ∀ s₀, (applierSystem V n).Reachable s₀ →
      Relation.ReflTransGen (applierSystem V n).step s₀ s →
      ∀ i < n, ∀ idx v, s₀.cfg.logs i idx = some v → s.cfg.logs i idx = some v := by
  obtain ⟨hs, hn⟩ := ApplierInv.reachable h hclean
  refine ⟨?_, ?_, ?_⟩
  · intro i hi j hj idx
    rw [← hn] at hi hj
    exact hs.agree idx i hi j hj
  · intro i hi
    rw [← hn] at hi
    exact hs.pred i hi
  · intro s₀ h0 hrun i hi
    obtain ⟨hs0, hn0⟩ := ApplierInv.reachable h0 (hclean.before_run hrun)
    rw [← hn0] at hi
    exact (hs0.run hrun hclean).2.2 i hi

/-- A command message. -/
def command (index : ℤ) (v : V) : ApplyMsg V := ⟨true, v, index, false, none, 0⟩

/-- The tester of two servers after server `0` has applied `"a"` at index `1`. -/
def oneApplied : Tester String (ApplierPc String) :=
  ⟨(checkLogs (.blank 2) 0 (command 1 "a")).2.2, [⟨0, .ranging⟩], none⟩

theorem oneApplied_reachable : (applierSystem String 2).Reachable oneApplied := by
  have h0 : (applierSystem String 2).Reachable ⟨.blank 2, [], none⟩ :=
    System.Reachable.of_init rfl
  have h1 := h0.tail ⟨rfl, ApplierStep.start 0 (by decide)⟩
  have h2 := h1.tail ⟨rfl, ApplierStep.receive 0 0 (command 1 "a") rfl rfl⟩
  have h3 := h2.tail ⟨rfl, ApplierStep.check 0 0 (command 1 "a") rfl⟩
  exact h3.tail ⟨rfl, ApplierStep.pass 0 0 (command 1 "a") none _ rfl (by decide)⟩

/-- Server `1` applies `"a"` too, and server `0` goes on with `"b"` at index `2`. -/
theorem applier_sound_bothApplied : ∃ s, (applierSystem String 2).Reachable s ∧
    s.cfg.logs 0 2 = some "b" ∧ s.cfg.logs 1 1 = some "a" ∧ s.cfg.logs 0 1 = some "a" ∧
    ∀ v w, s.cfg.logs 0 1 = some v → s.cfg.logs 1 1 = some w → v = w := by
  have hstart := Relation.ReflTransGen.single (r := (applierSystem String 2).step)
    (a := oneApplied) ⟨rfl, ApplierStep.start 1 (by decide)⟩
  have hfirst := ((hstart.tail ⟨rfl, ApplierStep.receive 1 1 (command 1 "a") rfl rfl⟩).tail
    ⟨rfl, ApplierStep.check 1 1 (command 1 "a") rfl⟩).tail
    ⟨rfl, ApplierStep.pass 1 1 (command 1 "a") none _ rfl (by decide)⟩
  have hrun := ((hfirst.tail ⟨rfl, ApplierStep.receive 0 0 (command 2 "b") rfl rfl⟩).tail
    ⟨rfl, ApplierStep.check 0 0 (command 2 "b") rfl⟩).tail
    ⟨rfl, ApplierStep.pass 0 0 (command 2 "b") none _ rfl (by decide)⟩
  have hreach := oneApplied_reachable.trans hrun
  obtain ⟨hagree, -, hkept⟩ := applier_sound hreach ⟨rfl, by simp [oneApplied, Reader.yields]⟩
  exact ⟨_, hreach, rfl, rfl, hkept oneApplied oneApplied_reachable hrun 0 (by decide) 1 "a" rfl,
    hagree 0 (by decide) 1 (by decide) 1⟩

end ComputerScience.RaftConfig
