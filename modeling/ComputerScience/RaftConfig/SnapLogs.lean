/-
  ComputerScience.RaftConfig.SnapLogs
  ───────────────────────────────────
  **THE RAFT TESTER WITH SNAPSHOTS** (`raft/config.go`, `ingestSnap` and `applierSnap`).

  A server's log may also change wholesale: `ingestSnap` decodes a snapshot, checks its
  index, and puts its entries in place of `cfg.logs[i]`.  `checkLogs` compares a command
  with what all servers have recorded; `ingestSnap` compares nothing.

  The system is parameterised by a condition `ok` on the snapshots that are ingested:
  `fun _ _ _ => True` gives all runs, `SnapAgrees` the runs in which a snapshot agrees
  with the other servers' logs.  The snapshots that `applierSnap` itself makes go to Raft
  and change nothing here.  A restart may ingest the persisted snapshot.

  Main results:
    • `snap_divergence` — a snapshot can bring a diverging log in without any error,
    • `applierSnap_sound` — in the runs under `SnapAgrees` the logs agree, and an ingested
      snapshot keeps the agreement exactly if it meets `SnapAgrees`.
-/
import ComputerScience.RaftConfig.Logs

namespace ComputerScience.RaftConfig

open ComputerScience.Lib

variable {V : Type} [DecidableEq V]

/-! ## §1. `ingestSnap`. -/

/-- `cfg.logs[i][j] = xlog[j]`, from index `j` on. -/
def fill (j : ℕ) : List V → (ℤ → Option V) → ℤ → Option V
  | [], log => log
  | x :: xlog, log => fill (j + 1) xlog (Function.update log j (some x))

/-- The log that a snapshot leaves: an empty map, filled with the entries. -/
def snapLog (xlog : List V) : ℤ → Option V := fill 0 xlog fun _ => none

/-- `ingestSnap`.  The first two errors are `log.Fatalf`s inside of it. -/
def ingestSnap (cfg : Logs V) (i : ℕ) (snapshot : Option (Snapshot V)) (index : ℤ) :
    Except (ApplyError V) (Logs V) :=
  match snapshot with
  | none => .error .nilSnapshot
  | some .undecodable => .error .decode
  | some (.encoded lastIncludedIndex xlog) =>
      if index ≠ -1 ∧ index ≠ lastIncludedIndex then .error (.snapshotIndex i)
      else .ok { cfg with
        logs := Function.update cfg.logs i (snapLog xlog)
        lastApplied := Function.update cfg.lastApplied i lastIncludedIndex }

/-! ## §2. The goroutines in `applierSnap`. -/

/-- Where a goroutine in `applierSnap` is. -/
inductive SnapPc (V : Type) where
  /-- at `for m := range applyCh` -/
  | ranging
  /-- before the `cfg.mu.Lock()` of `ingestSnap` -/
  | ingesting (m : ApplyMsg V)
  /-- before `if m.CommandIndex != cfg.lastApplied[i]+1` -/
  | ordering (m : ApplyMsg V)
  /-- before the `cfg.mu.Lock()` of `checkLogs` -/
  | checking (m : ApplyMsg V)
  /-- after its `cfg.mu.Unlock()` -/
  | checked (m : ApplyMsg V) (err_msg : Option (ApplyError V)) (prevok : Bool)
  /-- before `cfg.lastApplied[i] = m.CommandIndex` -/
  | recording (m : ApplyMsg V) (err_msg : Option (ApplyError V))
  /-- before `if err_msg != ""` -/
  | testing (err_msg : Option (ApplyError V))

/-- The server is restarted: `start1` sets `lastApplied`, and ingests the persisted
snapshot if there is one. -/
def restart (cfg : Logs V) (i : ℕ) (snapshot : Option (Snapshot V)) :
    Except (ApplyError V) (Logs V) :=
  let cfg := { cfg with lastApplied := Function.update cfg.lastApplied i 0 }
  match snapshot with
  | none => .ok cfg
  | some snapshot => ingestSnap cfg i (some snapshot) (-1)

/-- The entries of a snapshot that can be decoded meet `ok`. -/
def Snapshot.Meets (ok : List V → Prop) : Option (Snapshot V) → Prop
  | some (.encoded _ xlog) => ok xlog
  | _ => True

/-- One step of a goroutine, or a (re)start of a server; every snapshot that is ingested
meets `ok`. -/
inductive SnapStep (ok : Logs V → ℕ → List V → Prop) (s : Tester V (SnapPc V)) :
    Tester V (SnapPc V) → Prop where
  | start (i : ℕ) (hi : i < s.cfg.n) (snapshot : Option (Snapshot V)) (cfg : Logs V)
      (h : restart s.cfg i snapshot = .ok cfg) (hok : Snapshot.Meets (ok s.cfg i) snapshot) :
      SnapStep ok s { s with cfg := cfg, readers := s.readers ++ [⟨i, .ranging⟩] }
  | startFatal (i : ℕ) (hi : i < s.cfg.n) (snapshot : Option (Snapshot V)) (e : ApplyError V)
      (h : restart s.cfg i snapshot = .error e) : SnapStep ok s { s with fatal := some e }
  | ignore (a i : ℕ) (m : ApplyMsg V) (h : s.readers[a]? = some ⟨i, .ranging⟩)
      (hm : m.SnapshotValid = false ∧ m.CommandValid = false) : SnapStep ok s s
  | receiveSnap (a i : ℕ) (m : ApplyMsg V) (h : s.readers[a]? = some ⟨i, .ranging⟩)
      (hm : m.SnapshotValid = true) :
      SnapStep ok s { s with readers := s.readers.set a ⟨i, .ingesting m⟩ }
  | receive (a i : ℕ) (m : ApplyMsg V) (h : s.readers[a]? = some ⟨i, .ranging⟩)
      (hm : m.SnapshotValid = false ∧ m.CommandValid = true) :
      SnapStep ok s { s with readers := s.readers.set a ⟨i, .ordering m⟩ }
  | ingest (a i : ℕ) (m : ApplyMsg V) (h : s.readers[a]? = some ⟨i, .ingesting m⟩)
      (cfg : Logs V) (hsnap : ingestSnap s.cfg i m.Snapshot m.SnapshotIndex = .ok cfg)
      (hok : Snapshot.Meets (ok s.cfg i) m.Snapshot) :
      SnapStep ok s { s with cfg := cfg, readers := s.readers.set a ⟨i, .testing none⟩ }
  | ingestError (a i : ℕ) (m : ApplyMsg V) (h : s.readers[a]? = some ⟨i, .ingesting m⟩)
      (e : ApplyError V) (hsnap : ingestSnap s.cfg i m.Snapshot m.SnapshotIndex = .error e) :
      SnapStep ok s { s with readers := s.readers.set a ⟨i, .testing (some e)⟩ }
  | inOrder (a i : ℕ) (m : ApplyMsg V) (h : s.readers[a]? = some ⟨i, .ordering m⟩)
      (hidx : m.CommandIndex = s.cfg.lastApplied i + 1) :
      SnapStep ok s { s with readers := s.readers.set a ⟨i, .checking m⟩ }
  | outOfOrder (a i : ℕ) (m : ApplyMsg V) (h : s.readers[a]? = some ⟨i, .ordering m⟩)
      (hidx : m.CommandIndex ≠ s.cfg.lastApplied i + 1) :
      SnapStep ok s { s with readers := s.readers.set a ⟨i, .recording m
        (some (.unexpectedIndex i (s.cfg.lastApplied i + 1) m.CommandIndex))⟩ }
  | check (a i : ℕ) (m : ApplyMsg V) (h : s.readers[a]? = some ⟨i, .checking m⟩) :
      SnapStep ok s { s with
        cfg := (checkLogs s.cfg i m).2.2
        readers := s.readers.set a
          ⟨i, .checked m (checkLogs s.cfg i m).1 (checkLogs s.cfg i m).2.1⟩ }
  | judged (a i : ℕ) (m : ApplyMsg V) (err_msg : Option (ApplyError V)) (prevok : Bool)
      (h : s.readers[a]? = some ⟨i, .checked m err_msg prevok⟩) :
      SnapStep ok s { s with
        readers := s.readers.set a ⟨i, .recording m (judge i m err_msg prevok)⟩ }
  | record (a i : ℕ) (m : ApplyMsg V) (err_msg : Option (ApplyError V))
      (h : s.readers[a]? = some ⟨i, .recording m err_msg⟩) :
      SnapStep ok s { s with
        cfg := { s.cfg with lastApplied := Function.update s.cfg.lastApplied i m.CommandIndex }
        readers := s.readers.set a ⟨i, .testing err_msg⟩ }
  | pass (a i : ℕ) (h : s.readers[a]? = some ⟨i, .testing none⟩) :
      SnapStep ok s { s with readers := s.readers.set a ⟨i, .ranging⟩ }
  | fail (a i : ℕ) (e : ApplyError V) (h : s.readers[a]? = some ⟨i, .testing (some e)⟩) :
      SnapStep ok s { s with fatal := some e }

/-- The tester of `make_config` with `n` servers, in the runs whose snapshots meet `ok`. -/
def snapSystem (V : Type) [DecidableEq V] (n : ℕ) (ok : Logs V → ℕ → List V → Prop) :
    System (Tester V (SnapPc V)) where
  init s := s = ⟨.blank n, [], none⟩
  step s s' := s.fatal = none ∧ SnapStep ok s s'

/-- The error that the message in hand yields. -/
def snapYields (a : Reader (SnapPc V)) : Option (ApplyError V) :=
  match a.pc with
  | .checked m err_msg prevok => judge a.server m err_msg prevok
  | .recording _ err_msg | .testing err_msg => err_msg
  | _ => none

/-- The snapshot agrees with the logs of the other servers, at every index above `0`. -/
def SnapAgrees (cfg : Logs V) (i : ℕ) (xlog : List V) : Prop :=
  ∀ k < cfg.n, k ≠ i → ∀ idx > 0, ∀ v w,
    cfg.logs k idx = some v → snapLog xlog idx = some w → v = w

/-! ## §3. Ingesting a snapshot. -/

omit [DecidableEq V] in
/-- What an ingested snapshot was, and what it left. -/
theorem ingestSnap_ok {cfg cfg' : Logs V} {i : ℕ} {snapshot : Option (Snapshot V)} {index : ℤ}
    (h : ingestSnap cfg i snapshot index = .ok cfg') :
    ∃ lastIncludedIndex xlog, snapshot = some (.encoded lastIncludedIndex xlog) ∧
      cfg'.n = cfg.n ∧ cfg'.logs = Function.update cfg.logs i (snapLog xlog) := by
  unfold ingestSnap at h
  split at h
  next => cases h
  next => cases h
  next lastIncludedIndex xlog =>
    split at h
    next => cases h
    next =>
      cases h
      exact ⟨lastIncludedIndex, xlog, rfl, rfl, rfl⟩

/-- The logs agree at every index above `0`. -/
def Agree (cfg : Logs V) : Prop := ∀ idx > 0, AgreeAt cfg idx

omit [DecidableEq V] in
/-- A snapshot that agrees with the other logs keeps the agreement. -/
theorem Agree.ingest {cfg cfg' : Logs V} (hagree : Agree cfg) {i : ℕ} {xlog : List V}
    (hn : cfg'.n = cfg.n) (hlogs : cfg'.logs = Function.update cfg.logs i (snapLog xlog))
    (hsnap : SnapAgrees cfg i xlog) : Agree cfg' := by
  intro idx hidx a ha b hb v w hv hw
  rw [hn] at ha hb
  rw [hlogs] at hv hw
  by_cases hai : a = i
  · rw [hai, Function.update_self] at hv
    by_cases hbi : b = i
    · rw [hbi, Function.update_self, hv] at hw
      exact Option.some.inj hw
    · rw [Function.update_of_ne hbi] at hw
      exact (hsnap b hb hbi idx hidx w v hw hv).symm
  · rw [Function.update_of_ne hai] at hv
    by_cases hbi : b = i
    · rw [hbi, Function.update_self] at hw
      exact hsnap a ha hai idx hidx v w hv hw
    · rw [Function.update_of_ne hbi] at hw
      exact hagree idx hidx a ha b hb v w hv hw

omit [DecidableEq V] in
/-- A snapshot that does not agree with them breaks it at once. -/
theorem snapAgrees_of_agree {cfg cfg' : Logs V} {i : ℕ} (hi : i < cfg.n) {xlog : List V}
    (hn : cfg'.n = cfg.n) (hlogs : cfg'.logs = Function.update cfg.logs i (snapLog xlog))
    (hagree : Agree cfg') : SnapAgrees cfg i xlog := by
  intro k hk hki idx hidx v w hv hw
  refine hagree idx hidx k (by rw [hn]; exact hk) i (by rw [hn]; exact hi) v w ?_ ?_
  · rw [hlogs, Function.update_of_ne hki]
    exact hv
  · rw [hlogs, Function.update_self]
    exact hw

omit [DecidableEq V] in
/-- A restart changes the logs by the persisted snapshot only. -/
theorem Agree.restart {cfg cfg' : Logs V} (hagree : Agree cfg) {i : ℕ}
    {snapshot : Option (Snapshot V)} (h : restart cfg i snapshot = .ok cfg')
    (hok : Snapshot.Meets (SnapAgrees cfg i) snapshot) : Agree cfg' := by
  unfold RaftConfig.restart at h
  split at h
  next =>
    cases h
    exact hagree
  next snapshot =>
    obtain ⟨lastIncludedIndex, xlog, hsnap, hn, hlogs⟩ := ingestSnap_ok h
    rw [hsnap] at hok
    exact Agree.ingest hagree hn hlogs hok

/-! ## §4. Runs without error. -/

/-- An error stays: a state without one was reached from one without. -/
theorem Clean.before_snap {ok : Logs V → ℕ → List V → Prop} {s s' : Tester V (SnapPc V)}
    (h : SnapStep ok s s') (hs : s.fatal = none) (hclean : Clean snapYields s') :
    Clean snapYields s := by
  cases h with
  | start i hi snapshot cfg h hok =>
      exact ⟨hs, fun x hx => hclean.2 x (List.mem_append_left _ hx)⟩
  | startFatal i hi snapshot e h => exact absurd hclean.1 (by simp)
  | ignore a i m h hm => exact hclean
  | receiveSnap a i m h hm => exact Clean.of_set hs h hclean.2 (fun _ => rfl)
  | receive a i m h hm => exact Clean.of_set hs h hclean.2 (fun _ => rfl)
  | ingest a i m h cfg hsnap hok => exact Clean.of_set hs h hclean.2 (fun _ => rfl)
  | ingestError a i m h e hsnap => exact Clean.of_set hs h hclean.2 (fun _ => rfl)
  | inOrder a i m h hidx => exact Clean.of_set hs h hclean.2 (fun _ => rfl)
  | outOfOrder a i m h hidx => exact Clean.of_set hs h hclean.2 (fun _ => rfl)
  | check a i m h => exact Clean.of_set hs h hclean.2 (fun _ => rfl)
  | judged a i m err_msg prevok h => exact Clean.of_set hs h hclean.2 (fun hz => hz)
  | record a i m err_msg h => exact Clean.of_set hs h hclean.2 (fun hz => hz)
  | pass a i h => exact Clean.of_set hs h hclean.2 (fun _ => rfl)
  | fail a i e h => exact absurd hclean.1 (by simp)

/-- **One step** of a run without error, under the condition, keeps the agreement. -/
theorem Agree.step {s s' : Tester V (SnapPc V)} (hagree : Agree s.cfg)
    (h : SnapStep SnapAgrees s s') (hclean : Clean snapYields s') : Agree s'.cfg := by
  cases h with
  | start i hi snapshot cfg h hok => exact hagree.restart h hok
  | ingest a i m h cfg hsnap hok =>
      obtain ⟨lastIncludedIndex, xlog, hm, hn, hlogs⟩ := ingestSnap_ok hsnap
      rw [hm] at hok
      exact hagree.ingest hn hlogs hok
  | check a i m h =>
      -- the message in hand is the one just checked
      have herr := (judge_none (Clean.moved h hclean.2)).1
      exact fun idx hidx => (hagree idx hidx).checkLogs herr
  | _ => exact hagree

/-- No step changes the number of servers. -/
theorem SnapStep.size {ok : Logs V → ℕ → List V → Prop} {s s' : Tester V (SnapPc V)}
    (h : SnapStep ok s s') : s'.cfg.n = s.cfg.n := by
  cases h with
  | start i hi snapshot cfg h hok =>
      unfold restart at h
      split at h
      next =>
        cases h
        rfl
      next =>
        obtain ⟨_, _, _, hn, _⟩ := ingestSnap_ok h
        exact hn
  | ingest a i m h cfg hsnap hok =>
      obtain ⟨_, _, _, hn, _⟩ := ingestSnap_ok hsnap
      exact hn
  | _ => rfl

theorem snap_size {n : ℕ} {ok : Logs V → ℕ → List V → Prop} {s : Tester V (SnapPc V)}
    (h : (snapSystem V n ok).Reachable s) : s.cfg.n = n := by
  refine h.invariant (I := fun s => s.cfg.n = n) ?_ ?_
  · rintro s rfl
    rfl
  · intro s s' _ ih hstep
    exact hstep.2.size.trans ih

/-- **Whole runs** under the condition. -/
theorem Agree.reachable {n : ℕ} {s : Tester V (SnapPc V)}
    (h : (snapSystem V n SnapAgrees).Reachable s) (hclean : Clean snapYields s) :
    Agree s.cfg := by
  refine h.invariant (I := fun s => Clean snapYields s → Agree s.cfg) ?_ ?_ hclean
  · rintro s rfl - idx - i - j - v w hv
    cases hv
  · intro s s' _ ih hstep hclean'
    exact Agree.step (ih (hclean'.before_snap hstep.2 hstep.1)) hstep.2 hclean'

/-- **When the tester with snapshots is sound**: in every run in which no processed
message yields an error and every ingested snapshot agrees with the other servers' logs
above index `0`, the logs agree above index `0` at every moment; and from such a state an
ingested snapshot keeps the agreement exactly if it agrees with them. -/
theorem applierSnap_sound {n : ℕ} {s : Tester V (SnapPc V)}
    (h : (snapSystem V n SnapAgrees).Reachable s) (hclean : Clean snapYields s) :
    (∀ idx > 0, ∀ i < n, ∀ j < n, ∀ v w,
      s.cfg.logs i idx = some v → s.cfg.logs j idx = some w → v = w) ∧
    ∀ i < n, ∀ lastIncludedIndex xlog index cfg',
      ingestSnap s.cfg i (some (.encoded lastIncludedIndex xlog)) index = .ok cfg' →
      ((∀ idx > 0, AgreeAt cfg' idx) ↔ SnapAgrees s.cfg i xlog) := by
  have hagree := Agree.reachable h hclean
  have hn := snap_size h
  subst hn
  refine ⟨hagree, ?_⟩
  intro i hi lastIncludedIndex xlog index cfg' hsnap
  obtain ⟨_, xlog', hxlog, hn, hlogs⟩ := ingestSnap_ok hsnap
  cases hxlog
  exact ⟨fun h' => snapAgrees_of_agree hi hn hlogs h', fun h' => Agree.ingest hagree hn hlogs h'⟩

/-! ## §5. A snapshot that diverges. -/

/-- A snapshot message. -/
def snapshotMsg (index : ℤ) (xlog : List V) (v : V) : ApplyMsg V :=
  ⟨false, v, 0, true, some (.encoded index xlog), index⟩

/-- Server `0` of two has been started and has applied `"a"` at index `1`. -/
def snapApplied : Tester String (SnapPc String) where
  cfg := { (checkLogs (.blank 2) 0 (command 1 "a")).2.2 with
    lastApplied := Function.update (Function.update (fun _ => 0) 0 0) 0 1 }
  readers := [⟨0, .ranging⟩]
  fatal := none

/-- No snapshot is ingested on the way there. -/
theorem snapApplied_reachable (ok : Logs String → ℕ → List String → Prop) :
    (snapSystem String 2 ok).Reachable snapApplied := by
  have h0 : (snapSystem String 2 ok).Reachable ⟨.blank 2, [], none⟩ := System.Reachable.of_init rfl
  have h1 := h0.tail ⟨rfl, SnapStep.start 0 (by decide) none _ rfl trivial⟩
  have h2 := h1.tail ⟨rfl, SnapStep.receive 0 0 (command 1 "a") rfl ⟨rfl, rfl⟩⟩
  have h3 := h2.tail ⟨rfl, SnapStep.inOrder 0 0 (command 1 "a") rfl rfl⟩
  have h4 := h3.tail ⟨rfl, SnapStep.check 0 0 (command 1 "a") rfl⟩
  have h5 := h4.tail ⟨rfl, SnapStep.judged 0 0 (command 1 "a") none false rfl⟩
  have h6 := h5.tail ⟨rfl, SnapStep.record 0 0 (command 1 "a") none rfl⟩
  exact h6.tail ⟨rfl, SnapStep.pass 0 0 rfl⟩

/-- **A diverging snapshot goes unnoticed**: server `1` ingests a snapshot with `"b"` at
index `1`, where server `0` has `"a"`, and no message yields an error. -/
theorem snap_divergence : ∃ s, (snapSystem String 2 (fun _ _ _ => True)).Reachable s ∧
    Clean snapYields s ∧ s.cfg.logs 0 1 = some "a" ∧ s.cfg.logs 1 1 = some "b" := by
  have h0 := snapApplied_reachable (fun _ _ _ => True)
  have h1 := h0.tail ⟨rfl, SnapStep.start 1 (by decide) none _ rfl trivial⟩
  have h2 := h1.tail ⟨rfl, SnapStep.receiveSnap 1 1 (snapshotMsg 1 ["", "b"] "") rfl rfl⟩
  have h3 := h2.tail ⟨rfl, SnapStep.ingest 1 1 (snapshotMsg 1 ["", "b"] "") rfl _ rfl trivial⟩
  have h4 := h3.tail ⟨rfl, SnapStep.pass 1 1 rfl⟩
  refine ⟨_, h4, ⟨rfl, ?_⟩, rfl, rfl⟩
  simp [snapApplied, snapYields]

/-- Server `1` ingests a snapshot with `"a"` at index `1`, as server `0` has it, and both go on
with `"c"` at index `2`. -/
theorem applierSnap_sound_ingested : ∃ s, (snapSystem String 2 SnapAgrees).Reachable s ∧
    s.cfg.logs 0 1 = some "a" ∧ s.cfg.logs 1 1 = some "a" ∧ s.cfg.logs 1 2 = some "c" ∧
    ∀ v w, s.cfg.logs 0 2 = some v → s.cfg.logs 1 2 = some w → v = w := by
  have hagrees : SnapAgrees snapApplied.cfg 1 ["", "a"] := by
    intro k hk hk1 idx hidx v w hv hw
    obtain rfl : k = 0 := by
      have : k < 2 := hk
      omega
    replace hv : (checkLogs (.blank 2) 0 (command 1 "a")).2.2.logs 0 idx = some v := hv
    rw [checkLogs_logs] at hv
    split at hv
    next h1 =>
      rw [h1.2] at hw
      exact (Option.some.inj hv).symm.trans (Option.some.inj hw)
    next => cases hv
  have h1 := (snapApplied_reachable SnapAgrees).tail
    ⟨rfl, SnapStep.start 1 (by decide) none _ rfl trivial⟩
  have h2 := ((h1.tail
    ⟨rfl, SnapStep.receiveSnap 1 1 (snapshotMsg 1 ["", "a"] "") rfl rfl⟩).tail
    ⟨rfl, SnapStep.ingest 1 1 (snapshotMsg 1 ["", "a"] "") rfl _ rfl hagrees⟩).tail
    ⟨rfl, SnapStep.pass 1 1 rfl⟩
  have h3 := (((h2.tail ⟨rfl, SnapStep.receive 0 0 (command 2 "c") rfl ⟨rfl, rfl⟩⟩).tail
    ⟨rfl, SnapStep.inOrder 0 0 (command 2 "c") rfl rfl⟩).tail
    ⟨rfl, SnapStep.check 0 0 (command 2 "c") rfl⟩).tail
    ⟨rfl, SnapStep.judged 0 0 (command 2 "c") none true rfl⟩
  have h4 := ((h3.tail ⟨rfl, SnapStep.record 0 0 (command 2 "c") none rfl⟩).tail
    ⟨rfl, SnapStep.pass 0 0 rfl⟩)
  have h5 := (((h4.tail ⟨rfl, SnapStep.receive 1 1 (command 2 "c") rfl ⟨rfl, rfl⟩⟩).tail
    ⟨rfl, SnapStep.inOrder 1 1 (command 2 "c") rfl rfl⟩).tail
    ⟨rfl, SnapStep.check 1 1 (command 2 "c") rfl⟩).tail
    ⟨rfl, SnapStep.judged 1 1 (command 2 "c") none true rfl⟩
  obtain ⟨hsound, -⟩ := applierSnap_sound h5 ⟨rfl, by simp [snapApplied, snapYields, judge]⟩
  exact ⟨_, h5, rfl, rfl, rfl, hsound 2 (by decide) 0 (by decide) 1 (by decide)⟩

end ComputerScience.RaftConfig
