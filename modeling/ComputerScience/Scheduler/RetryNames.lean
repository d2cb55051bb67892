/-
  ComputerScience.Scheduler.RetryNames
  ────────────────────────────────────
  **WHERE THE WORKERS OF THE RETRYING SCHEDULERS GET THEIR NAMES**
  (`ScheduleFixedV9`, `ScheduleFixedV10` in `02_work_scheduler/work_scheduler.go`).

  The range loop of V9 ends when `servers` is closed and drained.  V10 put the plain receive
  `srv := <-servers` of a `select` in its place: a closed channel is always ready, so the
  acceptor goes on and starts a worker for the name "" each time.

      the workers' names  ++  names in the channel  =  names sent

  holds exactly as long as no worker is started from the closed and drained channel.
-/
import ComputerScience.Scheduler.Retry

namespace ComputerScience.Scheduler

open ComputerScience.Lib

/-- The step does not start a worker from the closed and drained channel `servers`. -/
def AcceptsSent (s s' : Retry) : Prop :=
  s.servers = [] → s.serversClosed = true → s'.workers.length ≤ s.workers.length

/-- Every call is on a server whose name was sent, and there are no more workers than names. -/
def UsesSentNames (s : Retry) : Prop :=
  (∀ srv task, (srv, task) ∈ s.calls → srv ∈ s.sent) ∧ s.workers.length ≤ s.sent.length

/-- The account of the names. -/
structure NamesInv (s : Retry) : Prop where
  names : s.workers.map Worker.srv ++ s.servers = s.sent
  calls : ∀ srv task, (srv, task) ∈ s.calls → srv ∈ s.sent

section Names

variable {loop : AcceptorLoop} {numTask : ℕ} {s s' : Retry} {party : Party}

theorem NamesInv.usesSentNames (hinv : NamesInv s) : UsesSentNames s := by
  refine ⟨hinv.calls, ?_⟩
  have := congrArg List.length hinv.names
  rw [List.length_append, List.length_map] at this
  omega

/-- A worker keeps its name. -/
theorem NamesInv.workerStep (hinv : NamesInv s) {j : ℕ} {srv : String} {pc pc' : WorkerPc}
    (hj : s.workers[j]? = some ⟨srv, pc⟩) (hworkers : s'.workers = s.workers.set j ⟨srv, pc'⟩)
    (hservers : s'.servers = s.servers) (hsent : s'.sent = s.sent)
    (hcalls : ∀ srv task, (srv, task) ∈ s'.calls → srv ∈ s.sent) : NamesInv s' := by
  constructor
  · have hsame : (s.workers.set j ⟨srv, pc'⟩).map Worker.srv = s.workers.map Worker.srv :=
      map_set_eq hj rfl
    rw [hworkers, hservers, hsent, hsame]
    exact hinv.names
  · rw [hsent]
    exact hcalls

/-- **One step** that starts no worker from the closed channel keeps the account. -/
theorem NamesInv.step (hinv : NamesInv s) (hs : RetryStep loop numTask s party s')
    (hok : AcceptsSent s s') : NamesInv s' := by
  cases hs with
  | mainRecv i j srv task h hi hj => exact hinv.workerStep hj rfl rfl rfl hinv.calls
  | accept srv rest ha hs =>
      refine ⟨?_, hinv.calls⟩
      show (s.workers ++ [_]).map Worker.srv ++ rest = s.sent
      rw [List.map_append, List.append_assoc, ← hinv.names, hs]
      rfl
  | acceptClosed hloop ha hs hclosed =>
      have := hok hs hclosed
      simp only [List.length_append, List.length_singleton] at this
      omega
  | take j srv task rest hj hw =>
      refine hinv.workerStep hj rfl rfl rfl ?_
      intro srv' task' hmem
      rcases List.mem_append.mp hmem with hmem | hmem
      · exact hinv.calls srv' task' hmem
      · -- the caller is a worker, whose name was sent
        cases List.mem_singleton.mp hmem
        rw [← hinv.names]
        apply List.mem_append_left
        exact List.mem_map.mpr ⟨_, List.mem_of_getElem? hj, rfl⟩
  | workEnd j srv hj hw hclosed => exact hinv.workerStep hj rfl rfl rfl hinv.calls
  | callTrue j srv task hj => exact hinv.workerStep hj rfl rfl rfl hinv.calls
  | callFalse j srv task hj => exact hinv.workerStep hj rfl rfl rfl hinv.calls
  | requeue j srv task hj hopen hroom => exact hinv.workerStep hj rfl rfl rfl hinv.calls
  | arrive srv hopen =>
      constructor
      · show s.workers.map Worker.srv ++ (s.servers ++ [srv]) = s.sent ++ [srv]
        rw [← List.append_assoc, hinv.names]
      · intro srv' task' hmem
        exact List.mem_append_left _ (hinv.calls srv' task' hmem)
  | _ => exact ⟨hinv.names, hinv.calls⟩

theorem namesInv_reachable
    (h : ((retrySchedule loop numTask).restrict AcceptsSent).Reachable s) : NamesInv s := by
  refine System.Reachable.invariant (M := (retrySchedule loop numTask).restrict AcceptsSent)
    (I := NamesInv) ?_ ?_ h
  · rintro s rfl
    exact ⟨rfl, fun srv task hmem => by cases hmem⟩
  · rintro s s' _ hinv ⟨⟨party, hs⟩, hok⟩
    exact hinv.step hs hok

/-- The range loop of V9 never starts a worker from the closed channel. -/
theorem rangeServers_acceptsSent (hs : RetryStep .rangeServers numTask s party s') :
    AcceptsSent s s' := by
  intro hempty hclosed
  cases hs with
  | accept srv rest ha hs =>
      rw [hempty] at hs
      cases hs
  | acceptClosed hloop ha hs hclosed => cases hloop
  | mainRecv i j srv task h hi hj => exact Nat.le_of_eq List.length_set
  | take j srv task rest hj hw => exact Nat.le_of_eq List.length_set
  | workEnd j srv hj hw hclosed => exact Nat.le_of_eq List.length_set
  | callTrue j srv task hj => exact Nat.le_of_eq List.length_set
  | callFalse j srv task hj => exact Nat.le_of_eq List.length_set
  | requeue j srv task hj hopen hroom => exact Nat.le_of_eq List.length_set
  | _ => exact Nat.le_refl _

/-- In V9 every call is on a server whose name was sent. -/
theorem scheduleFixedV9_names (h : (scheduleFixedV9 numTask).Reachable s) : UsesSentNames s := by
  suffices hinv : NamesInv s from hinv.usesSentNames
  refine System.Reachable.invariant (M := scheduleFixedV9 numTask) (I := NamesInv) ?_ ?_ h
  · rintro s rfl
    exact ⟨rfl, fun srv task hmem => by cases hmem⟩
  · rintro s s' _ hinv ⟨party, hs⟩
    exact hinv.step hs (rangeServers_acceptsSent hs)

end Names

/-- **When `ScheduleFixedV10` uses sent names only**: in every run in which no worker is started
while `servers` is closed and drained, and a step that starts one then leaves more workers
than names. -/
theorem scheduleFixedV10_names (numTask : ℕ) (s : Retry)
    (h : ((scheduleFixedV10 numTask).restrict AcceptsSent).Reachable s) :
    UsesSentNames s ∧
    ∀ s', (scheduleFixedV10 numTask).step s s' → ¬ AcceptsSent s s' → ¬ UsesSentNames s' := by
  have hinv : NamesInv s := namesInv_reachable h
  refine ⟨hinv.usesSentNames, ?_⟩
  rintro s' ⟨party, hs⟩ hbad huses
  unfold AcceptsSent at hbad
  simp only [Classical.not_imp, Nat.not_le] at hbad
  obtain ⟨hempty, hclosed, hlt⟩ := hbad
  -- with the channel drained there are as many workers as names
  have hlen : s.workers.length = s.sent.length := by
    have := congrArg List.length hinv.names
    rw [hempty, List.append_nil, List.length_map] at this
    exact this
  have hsent : s'.sent = s.sent := by
    cases hs with
    | arrive srv hopen =>
        rw [hclosed] at hopen
        cases hopen
    | _ => rfl
  have hle := huses.2
  rw [hsent] at hle
  omega

/-- One name, then the channel is closed; the worker takes the task. -/
theorem scheduleFixedV10_names_oneServer :
    ∃ s, ((scheduleFixedV10 1).restrict AcceptsSent).Reachable s ∧ s.serversClosed = true ∧
      s.calls = [("a", 0)] ∧ UsesSentNames s := by
  have h0 : ((scheduleFixedV10 1).restrict AcceptsSent).Reachable retryInit :=
    System.Reachable.of_init rfl
  have h1 := h0.tail ⟨⟨_, .arrive "a" rfl⟩, fun _ h => by cases h⟩
  have h2 := h1.tail ⟨⟨_, .accept "a" [] rfl rfl⟩, fun h => by cases h⟩
  have h3 := h2.tail ⟨⟨_, .closeServers rfl⟩, fun _ _ => Nat.le_refl _⟩
  have h4 := h3.tail ⟨⟨_, .mainSend 0 rfl Nat.one_pos rfl Nat.one_pos⟩, fun _ _ => Nat.le_refl _⟩
  have h5 := h4.tail ⟨⟨_, .take 0 "a" 0 [] rfl rfl⟩, fun _ _ => Nat.le_refl _⟩
  exact ⟨_, h5, rfl, rfl, (scheduleFixedV10_names 1 _ h5).1⟩

/-- The owner closes `servers` before it has sent a name: the acceptor starts a worker for ""
all the same, and `call("", 0)` is made. -/
theorem scheduleFixedV10_emptyName :
    ¬ ∀ s, (scheduleFixedV10 1).Reachable s → UsesSentNames s := by
  intro huses
  have h0 : (scheduleFixedV10 1).Reachable retryInit := System.Reachable.of_init rfl
  have h1 := h0.tail ⟨_, .mainSend 0 rfl Nat.one_pos rfl Nat.one_pos⟩
  have h2 := (h1.tail ⟨_, .closeServers rfl⟩).tail ⟨_, .acceptClosed rfl rfl rfl rfl⟩
  have h3 := h2.tail ⟨_, .take 0 "" 0 [] rfl rfl⟩
  have hsent := (huses _ h3).1 "" 0 (List.mem_singleton.mpr rfl)
  cases hsent

end ComputerScience.Scheduler
