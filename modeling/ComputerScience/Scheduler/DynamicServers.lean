/-
  ComputerScience.Scheduler.DynamicServers
  ────────────────────────────────────────
  **THE SCHEDULER FOR SERVERS THAT ARRIVE OVER A CHANNEL**: `ScheduleFixedV4`
  (`02_work_scheduler/work_scheduler.go`).

  V4 is V3 with `servers chan string`: an acceptor starts the workers.  The loop that waits
  for the workers was kept as it is,

      for i := 0; i < len(servers); i++ { <-done }

  but `len` of a channel is the number of names that are buffered and not received yet, and
  the acceptor takes them out.  Main returns while calls are running: in some run for every
  number of tasks but 0, whatever the capacity of `servers` (`scheduleFixedV4_completes_iff`).
-/
import ComputerScience.Scheduler.FixedServers
import Mathlib.Data.List.Nodup

namespace ComputerScience.Scheduler

open ComputerScience.Lib
open scoped List

/-! ## §1. The goroutines and the channels. -/

/-- Where main is. -/
inductive DynamicMain where
  /-- `for task := 0; task < numTask; task++ { work <- task }`, then `close(work)` -/
  | feeding
  /-- at the test `i < len(servers)` -/
  | testing (i : ℕ)
  /-- before `<-done` -/
  | receiving (i : ℕ)
  | returned
  deriving DecidableEq, Repr

structure DynamicServers where
  main : DynamicMain
  feed : FeedPc
  workers : List DoneWorker
  /-- The acceptor is in `for srv := range servers`. -/
  accepting : Bool
  /-- The buffer of the channel `servers`. -/
  servers : List String
  serversClosed : Bool
  /-- The invocations `call(srv, task)` so far. -/
  calls : List (String × ℕ)
  /-- The invocations that have returned. -/
  completed : List (String × ℕ)

/-- One step; `cap` is the capacity of the channel `servers`, 0 when it is unbuffered. -/
inductive DynamicStep (cap numTask : ℕ) (s : DynamicServers) : DynamicServers → Prop where
  | handOver (task j : ℕ) (srv : String) (hm : s.main = .feeding) (hf : s.feed = .sending task)
      (ht : task < numTask) (hj : s.workers[j]? = some ⟨srv, .idle⟩) :
      DynamicStep cap numTask s { s with
        feed := .sending (task + 1)
        workers := s.workers.set j ⟨srv, .calling task⟩
        calls := s.calls ++ [(srv, task)] }
  | closeWork (task : ℕ) (hm : s.main = .feeding) (hf : s.feed = .sending task)
      (ht : numTask ≤ task) :
      DynamicStep cap numTask s { s with main := .testing 0, feed := .closed }
  | testTrue (i : ℕ) (hm : s.main = .testing i) (hi : i < s.servers.length) :
      DynamicStep cap numTask s { s with main := .receiving i }
  | testFalse (i : ℕ) (hm : s.main = .testing i) (hi : s.servers.length ≤ i) :
      DynamicStep cap numTask s { s with main := .returned }
  | recvDone (i j : ℕ) (srv : String) (hm : s.main = .receiving i)
      (hj : s.workers[j]? = some ⟨srv, .signalling⟩) :
      DynamicStep cap numTask s { s with
        main := .testing (i + 1)
        workers := s.workers.set j ⟨srv, .exited⟩ }
  | callReturn (j task : ℕ) (srv : String) (hj : s.workers[j]? = some ⟨srv, .calling task⟩) :
      DynamicStep cap numTask s { s with
        workers := s.workers.set j ⟨srv, .idle⟩
        completed := s.completed ++ [(srv, task)] }
  | workEnd (j : ℕ) (srv : String) (hj : s.workers[j]? = some ⟨srv, .idle⟩)
      (hf : s.feed = .closed) :
      DynamicStep cap numTask s { s with workers := s.workers.set j ⟨srv, .signalling⟩ }
  | arrive (srv : String) (hopen : s.serversClosed = false) (hroom : s.servers.length < cap) :
      DynamicStep cap numTask s { s with servers := s.servers ++ [srv] }
  -- the send meets the acceptor at the empty channel
  | arriveAccept (srv : String) (hopen : s.serversClosed = false) (ha : s.accepting = true)
      (hs : s.servers = []) :
      DynamicStep cap numTask s { s with workers := s.workers ++ [⟨srv, .idle⟩] }
  | accept (srv : String) (rest : List String) (ha : s.accepting = true)
      (hs : s.servers = srv :: rest) :
      DynamicStep cap numTask s { s with
        servers := rest
        workers := s.workers ++ [⟨srv, .idle⟩] }
  | rangeEnd (ha : s.accepting = true) (hs : s.servers = []) (hclosed : s.serversClosed = true) :
      DynamicStep cap numTask s { s with accepting := false }
  | closeServers (hopen : s.serversClosed = false) :
      DynamicStep cap numTask s { s with serversClosed := true }

/-- `ScheduleFixedV4`; names may be in the buffer of `servers` at the call. -/
def scheduleFixedV4 (cap numTask : ℕ) : System DynamicServers where
  init s := ∃ servers, servers.length ≤ cap ∧
    s = ⟨.feeding, .sending 0, [], true, servers, false, [], []⟩
  step := DynamicStep cap numTask

/-- The call for every task has returned. -/
def AllCompleted (numTask : ℕ) (s : DynamicServers) : Prop :=
  ∀ t, t < numTask → ∃ srv, (srv, t) ∈ s.completed

/-- No worker is inside of a call. -/
def NoCallRunning (s : DynamicServers) : Prop := ∀ w ∈ s.workers, w.running = none

/-- Main finds `i < len(servers)` false only in a state in which no call is running. -/
def LeavesIdle (s s' : DynamicServers) : Prop :=
  s.main ≠ .returned → s'.main = .returned → NoCallRunning s

/-! ## §2. The account of the calls. -/

structure DynamicInv (numTask : ℕ) (s : DynamicServers) : Prop where
  pool : PoolInv numTask s.feed s.workers s.calls s.completed
  closed : s.main ≠ .feeding → s.feed = .closed

section Steps

variable {cap numTask : ℕ} {s s' : DynamicServers}

/-- **One step** keeps the account. -/
theorem DynamicInv.step (hinv : DynamicInv numTask s) (hs : DynamicStep cap numTask s s') :
    DynamicInv numTask s' := by
  cases hs with
  | handOver task j srv hm hf ht hj =>
      exact ⟨hinv.pool.handOver hf ht hj, fun hne => absurd hm hne⟩
  | closeWork task hm hf ht => exact ⟨hinv.pool.close hf ht, fun _ => rfl⟩
  | testTrue i hm hi => exact ⟨hinv.pool, fun _ => hinv.closed (by rw [hm]; simp)⟩
  | testFalse i hm hi => exact ⟨hinv.pool, fun _ => hinv.closed (by rw [hm]; simp)⟩
  | recvDone i j srv hm hj =>
      have hfeed : s.feed = .closed := hinv.closed (by rw [hm]; simp)
      exact ⟨hinv.pool.leave hfeed hj rfl, fun _ => hfeed⟩
  | callReturn j task srv hj => exact ⟨hinv.pool.callReturn hj, hinv.closed⟩
  | workEnd j srv hj hf => exact ⟨hinv.pool.leave hf hj rfl, hinv.closed⟩
  | arrive srv hopen hroom => exact ⟨hinv.pool, hinv.closed⟩
  | arriveAccept srv hopen ha hs => exact ⟨hinv.pool.start srv, hinv.closed⟩
  | accept srv rest ha hs => exact ⟨hinv.pool.start srv, hinv.closed⟩
  | rangeEnd ha hs hclosed => exact ⟨hinv.pool, hinv.closed⟩
  | closeServers hopen => exact ⟨hinv.pool, hinv.closed⟩

theorem dynamicInv_reachable (h : (scheduleFixedV4 cap numTask).Reachable s) :
    DynamicInv numTask s := by
  refine h.invariant ?_ ?_
  · rintro s ⟨servers, -, rfl⟩
    refine ⟨⟨rfl, Nat.zero_le _, List.Perm.refl _, ?_⟩, fun hne => absurd rfl hne⟩
    intro w hmem
    cases hmem
  · intro s s' _ hinv hs
    exact hinv.step hs

/-- What has returned stays so. -/
theorem DynamicStep.completed_mono (hs : DynamicStep cap numTask s s') {c : String × ℕ}
    (hc : c ∈ s.completed) : c ∈ s'.completed := by
  cases hs with
  | callReturn j task srv hj => exact List.mem_append_left _ hc
  | _ => exact hc

/-- **After `close(work)` all calls have returned exactly when none is running.** -/
theorem DynamicInv.allCompleted_iff (hinv : DynamicInv numTask s) (hfeed : s.feed = .closed) :
    AllCompleted numTask s ↔ NoCallRunning s := by
  have hpool := hinv.pool
  rw [hfeed] at hpool
  have hhanded : s.calls.map Prod.snd = List.range numTask := hpool.handed
  constructor
  · intro hall w hw
    by_contra hrun
    obtain ⟨⟨srv, t⟩, hrun⟩ := Option.ne_none_iff_exists'.mp hrun
    obtain ⟨j, hj⟩ := List.getElem?_of_mem hw
    -- the task of a running call is handed out once, so it cannot have returned as well
    have ht : t < numTask := by
      have hmem : (srv, t) ∈ s.calls := hpool.log.mem_calls hj hrun
      have : t ∈ s.calls.map Prod.snd := List.mem_map.mpr ⟨_, hmem, rfl⟩
      rw [hhanded] at this
      exact List.mem_range.mp this
    obtain ⟨srv', hdone⟩ := hall t ht
    have hperm := (hpool.log : s.completed ++ _ ~ s.calls).map Prod.snd
    rw [hhanded, List.map_append] at hperm
    have hnodup := hperm.nodup_iff.mpr List.nodup_range
    have hdisj := List.disjoint_of_nodup_append hnodup
    apply hdisj (List.mem_map.mpr ⟨_, hdone, rfl⟩)
    exact List.mem_map.mpr ⟨(srv, t), List.mem_filterMap.mpr ⟨w, hw, hrun⟩, rfl⟩
  · intro hidle t ht
    have hdone := (hpool.all_done hidle).2
    have hmem : t ∈ s.calls.map Prod.snd := by
      rw [hhanded]
      exact List.mem_range.mpr ht
    obtain ⟨⟨srv, t'⟩, hcall, rfl⟩ := List.mem_map.mp hmem
    exact ⟨srv, hdone.mem_iff.mpr hcall⟩

/-- Main returns from its test alone, and after `close(work)`. -/
theorem DynamicInv.return_step (hinv : DynamicInv numTask s) (hs : DynamicStep cap numTask s s')
    (hm : s.main ≠ .returned) (hm' : s'.main = .returned) :
    s.feed = .closed ∧ s'.completed = s.completed := by
  cases hs with
  | testFalse i hmain hi => exact ⟨hinv.closed (by rw [hmain]; simp), rfl⟩
  | closeWork task hmain hf ht => cases hm'
  | testTrue i hmain hi => cases hm'
  | recvDone i j srv hmain hj => cases hm'
  | _ => exact absurd hm' hm

/-- In the runs in which main leaves its loop only when no call is running, all calls have
returned when it has. -/
theorem leavesIdle_completed (h : ((scheduleFixedV4 cap numTask).restrict LeavesIdle).Reachable s) :
    s.main = .returned → AllCompleted numTask s := by
  refine System.Reachable.invariant (M := (scheduleFixedV4 cap numTask).restrict LeavesIdle)
    (I := fun s => s.main = .returned → AllCompleted numTask s) ?_ ?_ h
  · rintro s ⟨servers, -, rfl⟩ hm
    cases hm
  · rintro s s' hr ih ⟨hs, hleave⟩ hm' t ht
    have hinv := dynamicInv_reachable hr.of_restrict
    have hall : AllCompleted numTask s := by
      by_cases hm : s.main = .returned
      · exact ih hm
      · obtain ⟨hfeed, -⟩ := hinv.return_step hs hm hm'
        exact (hinv.allCompleted_iff hfeed).mpr (hleave hm hm')
    obtain ⟨srv, hdone⟩ := hall t ht
    exact ⟨srv, hs.completed_mono hdone⟩

end Steps

/-! ## §3. A run that returns too early. -/

/-- The calls of one server for the tasks below `t`. -/
def callsBelow (t : ℕ) : List (String × ℕ) := (List.range t).map fun k => ("a", k)

theorem callsBelow_succ (t : ℕ) : callsBelow (t + 1) = callsBelow t ++ [("a", t)] := by
  unfold callsBelow
  rw [List.range_succ, List.map_append]
  rfl

/-- One server, which the acceptor took at once, has done the tasks below `t`. -/
def oneServer (t : ℕ) : DynamicServers :=
  ⟨.feeding, .sending t, [⟨"a", .idle⟩], true, [], false, callsBelow t, callsBelow t⟩

/-- A step that is not main's return. -/
theorem LeavesIdle.of_ne {s s' : DynamicServers} (h : s'.main ≠ .returned) : LeavesIdle s s' :=
  fun _ hm' => absurd hm' h

theorem oneServer_reachable (cap numTask t : ℕ) (ht : t ≤ numTask) :
    ((scheduleFixedV4 cap numTask).restrict LeavesIdle).Reachable (oneServer t) := by
  induction t with
  | zero =>
      have h0 : ((scheduleFixedV4 cap numTask).restrict LeavesIdle).Reachable
          ⟨.feeding, .sending 0, [], true, [], false, [], []⟩ :=
        System.Reachable.of_init ⟨[], Nat.zero_le _, rfl⟩
      exact h0.tail ⟨.arriveAccept "a" rfl rfl rfl, .of_ne nofun⟩
  | succ t ih =>
      have h1 := (ih (Nat.le_of_lt ht)).tail ⟨.handOver t 0 "a" rfl rfl ht rfl, .of_ne nofun⟩
      have h2 := h1.tail ⟨.callReturn 0 t "a" rfl, .of_ne nofun⟩
      rw [oneServer, callsBelow_succ]
      exact h2

/-- **Main returns while the call for the last task is running**: the buffer of `servers` is
empty, so it waits for no worker at all. -/
theorem returns_early (cap n : ℕ) :
    ∃ s, (scheduleFixedV4 cap (n + 1)).Reachable s ∧ s.main = .returned ∧
      ¬ AllCompleted (n + 1) s := by
  have h1 := (oneServer_reachable cap (n + 1) n (Nat.le_succ n)).of_restrict.tail
    (.handOver n 0 "a" rfl rfl (Nat.lt_succ_self n) rfl)
  have h2 := (h1.tail (.closeWork (n + 1) rfl rfl (Nat.le_refl _))).tail
    (.testFalse 0 rfl (Nat.le_refl 0))
  refine ⟨_, h2, rfl, ?_⟩
  intro hall
  obtain ⟨srv, hmem⟩ := hall n (Nat.lt_succ_self n)
  obtain ⟨k, hk, heq⟩ := List.mem_map.mp (show (srv, n) ∈ callsBelow n from hmem)
  rw [(Prod.mk.inj heq).2] at hk
  exact Nat.lt_irrefl n (List.mem_range.mp hk)

/-- **When `ScheduleFixedV4` waits for its calls**, for every capacity of `servers`:
  • whatever the interleaving, all calls have returned at the return, only for no tasks at all;
  • it is so in every run in which main finds `i < len(servers)` false only in states in which
    no call is running;
  • a return in any other state leaves a call behind. -/
theorem scheduleFixedV4_completes_iff (cap numTask : ℕ) :
    ((∀ s, (scheduleFixedV4 cap numTask).Reachable s → s.main = .returned →
      AllCompleted numTask s) ↔ numTask = 0) ∧
    (∀ s, ((scheduleFixedV4 cap numTask).restrict LeavesIdle).Reachable s →
      s.main = .returned → AllCompleted numTask s) ∧
    (∀ s s', (scheduleFixedV4 cap numTask).Reachable s → DynamicStep cap numTask s s' →
      ¬ LeavesIdle s s' → s'.main = .returned ∧ ¬ AllCompleted numTask s') := by
  refine ⟨⟨?_, ?_⟩, fun s h => leavesIdle_completed h, ?_⟩
  · intro hall
    cases numTask with
    | zero => rfl
    | succ n =>
        obtain ⟨s, h, hm, hnot⟩ := returns_early cap n
        exact absurd (hall s h hm) hnot
  · rintro rfl s _ _ t ht
    exact absurd ht (Nat.not_lt_zero t)
  · intro s s' h hs hleave
    unfold LeavesIdle at hleave
    simp only [Classical.not_imp] at hleave
    obtain ⟨hm, hm', hrun⟩ := hleave
    have hinv := dynamicInv_reachable h
    obtain ⟨hfeed, hsame⟩ := hinv.return_step hs hm hm'
    refine ⟨hm', ?_⟩
    intro hall
    apply hrun
    apply (hinv.allCompleted_iff hfeed).mp
    unfold AllCompleted at hall ⊢
    rw [← hsame]
    exact hall

/-- One server has done both tasks when main looks at `len(servers)`. -/
theorem scheduleFixedV4_completes_twoTasks :
    ∃ s, ((scheduleFixedV4 0 2).restrict LeavesIdle).Reachable s ∧ s.main = .returned ∧
      AllCompleted 2 s := by
  have h1 := (oneServer_reachable 0 2 2 (Nat.le_refl 2)).tail
    ⟨.closeWork 2 rfl rfl (Nat.le_refl 2), .of_ne nofun⟩
  have h2 := h1.tail ⟨.testFalse 0 rfl (Nat.le_refl 0), by
    intro _ _ w hw
    rw [List.mem_singleton.mp hw]
    rfl⟩
  exact ⟨_, h2, rfl, (scheduleFixedV4_completes_iff 0 2).2.1 _ h2 rfl⟩

/-- One task and one server over an unbuffered channel. -/
theorem scheduleFixedV4_oneTask :
    ¬ ∀ s, (scheduleFixedV4 0 1).Reachable s → s.main = .returned → AllCompleted 1 s := by
  intro hall
  obtain ⟨s, h, hm, hnot⟩ := returns_early 0 0
  exact hnot (hall s h hm)

end ComputerScience.Scheduler
