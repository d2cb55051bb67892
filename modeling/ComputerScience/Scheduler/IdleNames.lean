/-
  ComputerScience.Scheduler.IdleNames
  ───────────────────────────────────
  **THE SCHEDULER WITH A CHANNEL OF IDLE NAMES**: `ScheduleFixedV2`
  (`02_work_scheduler/work_scheduler.go`).

  The buffered channel `idle` holds the names of the servers that no call runs on; main takes
  a name before it starts the goroutine for a task, the goroutine puts it back after its
  call, and main waits for the end by draining all names.

      idle  +  in main's hands  +  in the goroutines' hands  +  drained  =  servers

  is the whole argument: the names a goroutine holds are its own, and when all names are
  drained no goroutine holds one.
-/
import ComputerScience.Lib.CallLog
import ComputerScience.Lib.TransitionSystem

namespace ComputerScience.Scheduler

open ComputerScience.Lib
open scoped List

/-! ## §1. The goroutines. -/

/-- Where main is. -/
inductive IdleMain where
  /-- `for i := range servers { idle <- servers[i] }` -/
  | filling (k : ℕ)
  /-- at `for task < numTask`, before `srv := <-idle` -/
  | receiving (task : ℕ)
  /-- before `go func() { … }()` -/
  | launching (task : ℕ) (srv : String)
  /-- `for i := 0; i < len(servers); i++ { <-idle }` -/
  | draining (i : ℕ)
  | returned

/-- Where the goroutine of a task is. -/
inductive TaskGoPc where
  /-- before `call(srv, task)` -/
  | started
  | calling
  /-- before `idle <- srv` -/
  | returning
  | exited
  deriving DecidableEq, Repr

structure TaskGo where
  srv : String
  task : ℕ
  pc : TaskGoPc
  deriving DecidableEq, Repr

structure IdleNames where
  main : IdleMain
  /-- The buffer of `idle := make(chan string, len(servers))`. -/
  idle : List String
  gos : List TaskGo
  /-- The names main has received in its last loop. -/
  drained : List String
  /-- The invocations `call(srv, task)` so far. -/
  calls : List (String × ℕ)
  /-- The invocations that have returned. -/
  completed : List (String × ℕ)

/-- One step. -/
inductive IdleStep (servers : List String) (numTask : ℕ) (s : IdleNames) : IdleNames → Prop where
  | fill (k : ℕ) (srv : String) (hm : s.main = .filling k) (hk : servers[k]? = some srv)
      (hroom : s.idle.length < servers.length) :
      IdleStep servers numTask s { s with main := .filling (k + 1), idle := s.idle ++ [srv] }
  | filled (k : ℕ) (hm : s.main = .filling k) (hk : servers.length ≤ k) :
      IdleStep servers numTask s { s with main := .receiving 0 }
  | receive (task : ℕ) (srv : String) (rest : List String) (hm : s.main = .receiving task)
      (ht : task < numTask) (hidle : s.idle = srv :: rest) :
      IdleStep servers numTask s { s with main := .launching task srv, idle := rest }
  | launch (task : ℕ) (srv : String) (hm : s.main = .launching task srv) :
      IdleStep servers numTask s { s with
        main := .receiving (task + 1)
        gos := s.gos ++ [⟨srv, task, .started⟩] }
  | launched (task : ℕ) (hm : s.main = .receiving task) (ht : numTask ≤ task) :
      IdleStep servers numTask s { s with main := .draining 0 }
  | drain (i : ℕ) (srv : String) (rest : List String) (hm : s.main = .draining i)
      (hi : i < servers.length) (hidle : s.idle = srv :: rest) :
      IdleStep servers numTask s { s with
        main := .draining (i + 1)
        idle := rest
        drained := s.drained ++ [srv] }
  | mainReturn (i : ℕ) (hm : s.main = .draining i) (hi : servers.length ≤ i) :
      IdleStep servers numTask s { s with main := .returned }
  | callBegin (j : ℕ) (srv : String) (task : ℕ) (hj : s.gos[j]? = some ⟨srv, task, .started⟩) :
      IdleStep servers numTask s { s with
        gos := s.gos.set j ⟨srv, task, .calling⟩
        calls := s.calls ++ [(srv, task)] }
  | callReturn (j : ℕ) (srv : String) (task : ℕ) (hj : s.gos[j]? = some ⟨srv, task, .calling⟩) :
      IdleStep servers numTask s { s with
        gos := s.gos.set j ⟨srv, task, .returning⟩
        completed := s.completed ++ [(srv, task)] }
  | putBack (j : ℕ) (srv : String) (task : ℕ) (hj : s.gos[j]? = some ⟨srv, task, .returning⟩)
      (hroom : s.idle.length < servers.length) :
      IdleStep servers numTask s { s with
        gos := s.gos.set j ⟨srv, task, .exited⟩
        idle := s.idle ++ [srv] }

/-- `ScheduleFixedV2` -/
def scheduleFixedV2 (servers : List String) (numTask : ℕ) : System IdleNames where
  init s := s = ⟨.filling 0, [], [], [], [], []⟩
  step := IdleStep servers numTask

/-! ## §2. The invariant. -/

/-- The call the goroutine has still to begin. -/
def TaskGo.toCall (g : TaskGo) : Option (String × ℕ) :=
  match g.pc with
  | .started => some (g.srv, g.task)
  | _ => none

/-- The call the goroutine is inside of. -/
def TaskGo.running (g : TaskGo) : Option (String × ℕ) :=
  match g.pc with
  | .calling => some (g.srv, g.task)
  | _ => none

/-- The name in the goroutine's hands. -/
def TaskGo.name (g : TaskGo) : Option String :=
  match g.pc with
  | .exited => none
  | _ => some g.srv

/-- The name in main's hands. -/
def IdleMain.names : IdleMain → List String
  | .launching _ srv => [srv]
  | _ => []

/-- The names that main has put into `idle` at the start. -/
def IdleMain.filledNames (servers : List String) : IdleMain → List String
  | .filling k => servers.take k
  | _ => servers

/-- The first task without a goroutine. -/
def IdleMain.next (numTask : ℕ) : IdleMain → ℕ
  | .filling _ => 0
  | .receiving task | .launching task _ => task
  | .draining _ | .returned => numTask

/-- The first task main has no name for yet. -/
def IdleMain.taken (numTask : ℕ) : IdleMain → ℕ
  | .launching task _ => task + 1
  | main => main.next numTask

/-- How many names main has drained. -/
def IdleMain.drainedCount (n : ℕ) : IdleMain → ℕ
  | .draining i => i
  | .returned => n
  | _ => 0

/-- The invariant. -/
structure IdleInv (servers : List String) (numTask : ℕ) (s : IdleNames) : Prop where
  /-- No name is lost or doubled. -/
  names : s.idle ++ s.main.names ++ s.gos.filterMap TaskGo.name ++ s.drained ~
    s.main.filledNames servers
  /-- Each task below `next` has its goroutine. -/
  tasks : s.gos.map TaskGo.task = List.range (s.main.next numTask)
  taken_le : s.main.taken numTask ≤ numTask
  /-- The calls begun and those about to begin are those of the goroutines. -/
  begun : Balanced TaskGo.toCall s.gos (s.gos.map fun g => (g.srv, g.task)) s.calls
  log : Balanced TaskGo.running s.gos s.calls s.completed
  drained : s.drained.length = s.main.drainedCount servers.length

section Steps

variable {servers : List String} {numTask : ℕ} {s s' : IdleNames}

/-- The drained names at the point of main's loop. -/
theorem IdleInv.drained_at (hinv : IdleInv servers numTask s) {main : IdleMain}
    (hm : s.main = main) : s.drained.length = main.drainedCount servers.length := by
  rw [hinv.drained, hm]

/-- Main moves names between `idle`, its hands and the drained ones. -/
theorem IdleInv.mainStep (hinv : IdleInv servers numTask s) (hgos : s'.gos = s.gos)
    (hcalls : s'.calls = s.calls) (hcompleted : s'.completed = s.completed)
    (hnext : s'.main.next numTask = s.main.next numTask)
    (htaken : s'.main.taken numTask ≤ numTask)
    (hnames : ∀ a, s'.idle.count a + s'.main.names.count a + s'.drained.count a +
        (s.main.filledNames servers).count a =
      s.idle.count a + s.main.names.count a + s.drained.count a +
        (s'.main.filledNames servers).count a)
    (hdrained : s'.drained.length = s'.main.drainedCount servers.length) :
    IdleInv servers numTask s' := by
  refine ⟨?_, ?_, htaken, ?_, ?_, hdrained⟩
  · rw [hgos, List.perm_iff_count]
    intro a
    have hold := List.perm_iff_count.mp hinv.names a
    have hnew := hnames a
    simp only [List.count_append] at hold ⊢
    omega
  · rw [hgos, hnext]
    exact hinv.tasks
  · rw [hgos, hcalls]
    exact hinv.begun
  · rw [hgos, hcalls, hcompleted]
    exact hinv.log

/-- The goroutine of a task moves; `hnames` says what it does with its name. -/
theorem IdleInv.goStep (hinv : IdleInv servers numTask s) {j : ℕ} {g g' : TaskGo}
    (hj : s.gos[j]? = some g) (hgos : s'.gos = s.gos.set j g')
    (hgo : g'.srv = g.srv ∧ g'.task = g.task) (hmain : s'.main = s.main)
    (hdrained : s'.drained = s.drained)
    (hnames : ∀ a, s'.idle.count a + (s'.gos.filterMap TaskGo.name).count a =
      s.idle.count a + (s.gos.filterMap TaskGo.name).count a)
    (hbegun : Balanced TaskGo.toCall s'.gos (s.gos.map fun g => (g.srv, g.task)) s'.calls)
    (hlog : Balanced TaskGo.running s'.gos s'.calls s'.completed) :
    IdleInv servers numTask s' := by
  refine ⟨?_, ?_, ?_, ?_, hlog, ?_⟩
  · rw [hmain, hdrained, List.perm_iff_count]
    intro a
    have hold := List.perm_iff_count.mp hinv.names a
    have hnew := hnames a
    simp only [List.count_append] at hold ⊢
    omega
  · rw [hmain, hgos, map_set_eq hj hgo.2]
    exact hinv.tasks
  · rw [hmain]
    exact hinv.taken_le
  · have hsame : s'.gos.map (fun g => (g.srv, g.task)) = s.gos.map fun g => (g.srv, g.task) := by
      rw [hgos, map_set_eq hj (by rw [hgo.1, hgo.2])]
    rw [hsame]
    exact hbegun
  · rw [hmain, hdrained]
    exact hinv.drained

/-- `go func() { call(srv, task); idle <- srv }()` -/
theorem IdleInv.launch (hinv : IdleInv servers numTask s) {task : ℕ} {srv : String}
    (hm : s.main = .launching task srv) :
    IdleInv servers numTask ({ s with
      main := .receiving (task + 1)
      gos := s.gos ++ [⟨srv, task, .started⟩] } : IdleNames) := by
  have hnames := hinv.names
  have htasks := hinv.tasks
  rw [hm] at hnames htasks
  refine ⟨?_, ?_, ?_, ?_, hinv.log.spawn rfl, ?_⟩
  · show s.idle ++ [] ++ (s.gos ++ [_]).filterMap TaskGo.name ++ s.drained ~ servers
    rw [List.perm_iff_count]
    intro a
    have hold := List.perm_iff_count.mp hnames a
    have hnew : (s.gos ++ [(⟨srv, task, .started⟩ : TaskGo)]).filterMap TaskGo.name =
        s.gos.filterMap TaskGo.name ++ [srv] := by
      rw [List.filterMap_append]
      rfl
    rw [hnew]
    simp only [IdleMain.names, IdleMain.filledNames, List.count_append, List.count_nil] at hold ⊢
    omega
  · show (s.gos ++ [_]).map TaskGo.task = List.range (task + 1)
    rw [List.map_append, htasks, List.range_succ]
    rfl
  · have := hinv.taken_le
    rw [hm] at this
    exact this
  · show Balanced TaskGo.toCall (s.gos ++ [_]) ((s.gos ++ [_]).map _) s.calls
    rw [List.map_append]
    exact hinv.begun.spawn_running rfl
  · exact (hinv.drained_at hm).trans rfl

/-- **One step** keeps the invariant. -/
theorem IdleInv.step (hinv : IdleInv servers numTask s) (hs : IdleStep servers numTask s s') :
    IdleInv servers numTask s' := by
  cases hs with
  | fill k srv hm hk hroom =>
      obtain ⟨hlt, hget⟩ := List.getElem?_eq_some_iff.mp hk
      refine hinv.mainStep rfl rfl rfl (by rw [hm]; rfl) (Nat.zero_le _) ?_ ?_
      · intro a
        rw [hm]
        simp only [IdleMain.names, IdleMain.filledNames, List.count_append,
          List.take_succ_eq_append_getElem hlt, hget]
        omega
      · exact (hinv.drained_at hm).trans rfl
  | filled k hm hk =>
      refine hinv.mainStep rfl rfl rfl (by rw [hm]; rfl) (Nat.zero_le _) ?_ ?_
      · intro a
        rw [hm]
        simp only [IdleMain.names, IdleMain.filledNames, List.take_of_length_le hk]
      · exact (hinv.drained_at hm).trans rfl
  | receive task srv rest hm ht hidle =>
      refine hinv.mainStep rfl rfl rfl (by rw [hm]; rfl) ht ?_ ?_
      · intro a
        rw [hm, hidle]
        simp only [IdleMain.names, IdleMain.filledNames, List.count_cons, List.count_nil]
        omega
      · exact (hinv.drained_at hm).trans rfl
  | launch task srv hm => exact hinv.launch hm
  | launched task hm ht =>
      have hnext : task = numTask := by
        have := hinv.taken_le
        rw [hm] at this
        exact Nat.le_antisymm this ht
      refine hinv.mainStep rfl rfl rfl (by rw [hm]; exact hnext.symm) (Nat.le_refl _) ?_ ?_
      · intro a
        rw [hm]
        rfl
      · exact (hinv.drained_at hm).trans rfl
  | drain i srv rest hm hi hidle =>
      refine hinv.mainStep rfl rfl rfl (by rw [hm]; rfl) (Nat.le_refl _) ?_ ?_
      · intro a
        rw [hm, hidle]
        simp only [IdleMain.names, IdleMain.filledNames, List.count_cons, List.count_nil,
          List.count_append]
        omega
      · simp only [List.length_append, List.length_singleton, hinv.drained_at hm]
        rfl
  | mainReturn i hm hi =>
      have hi' : s.drained.length = i := hinv.drained_at hm
      have hle : s.drained.length ≤ servers.length := by
        have := hinv.names.length_eq
        rw [hm] at this
        simp only [List.length_append, IdleMain.filledNames] at this
        omega
      refine hinv.mainStep rfl rfl rfl (by rw [hm]; rfl) (Nat.le_refl _) ?_ ?_
      · intro a
        rw [hm]
        rfl
      · show s.drained.length = servers.length
        omega
  | callBegin j srv task hj =>
      have hname : (s.gos.set j ⟨srv, task, .calling⟩).filterMap TaskGo.name =
          s.gos.filterMap TaskGo.name := filterMap_set_eq hj rfl
      exact hinv.goStep hj rfl ⟨rfl, rfl⟩ rfl rfl (fun a => by rw [hname])
        (hinv.begun.leave hj rfl rfl) (hinv.log.enter hj rfl rfl)
  | callReturn j srv task hj =>
      have hname : (s.gos.set j ⟨srv, task, .returning⟩).filterMap TaskGo.name =
          s.gos.filterMap TaskGo.name := filterMap_set_eq hj rfl
      exact hinv.goStep hj rfl ⟨rfl, rfl⟩ rfl rfl (fun a => by rw [hname])
        (hinv.begun.keep hj rfl) (hinv.log.leave hj rfl rfl)
  | putBack j srv task hj hroom =>
      refine hinv.goStep hj rfl ⟨rfl, rfl⟩ rfl rfl ?_ (hinv.begun.keep hj rfl)
        (hinv.log.keep hj rfl)
      intro a
      have hname : s.gos.filterMap TaskGo.name ~
          srv :: (s.gos.set j ⟨srv, task, .exited⟩).filterMap TaskGo.name :=
        filterMap_set_perm_of_none hj rfl rfl
      have := List.perm_iff_count.mp hname a
      simp only [List.count_append, List.count_cons, List.count_nil] at this ⊢
      omega

end Steps

theorem idleInv_reachable {servers : List String} {numTask : ℕ} {s : IdleNames}
    (h : (scheduleFixedV2 servers numTask).Reachable s) : IdleInv servers numTask s := by
  refine h.invariant ?_ ?_
  · rintro s rfl
    exact ⟨List.Perm.refl _, rfl, Nat.zero_le _, List.Perm.refl _, List.Perm.refl _, rfl⟩
  · intro s s' _ hinv hs
    exact hinv.step hs

/-! ## §3. Exclusion, the return, and progress. -/

section Results

variable {servers : List String} {numTask : ℕ} {s : IdleNames}

/-- **No two calls run on the same server.** -/
theorem IdleInv.exclusive (hinv : IdleInv servers numTask s) (hdistinct : servers.Nodup) :
    ((s.gos.filterMap TaskGo.running).map Prod.fst).Nodup := by
  -- a goroutine inside of a call has the name of its server in its hands
  have hsub : (s.gos.filterMap TaskGo.running).map Prod.fst <+ s.gos.filterMap TaskGo.name := by
    rw [List.map_filterMap]
    apply filterMap_sublist_filterMap
    intro g c hc
    unfold TaskGo.running at hc
    unfold TaskGo.name
    cases hpc : g.pc with
    | calling =>
        rw [hpc] at hc
        exact hc
    | _ =>
        rw [hpc] at hc
        cases hc
  have hfilled : (s.main.filledNames servers).Nodup := by
    cases s.main with
    | filling k => exact hdistinct.sublist (List.take_sublist k servers)
    | _ => exact hdistinct
  have hall := hinv.names.nodup_iff.mpr hfilled
  have hmid : s.gos.filterMap TaskGo.name <+
      s.idle ++ s.main.names ++ s.gos.filterMap TaskGo.name ++ s.drained :=
    (List.sublist_append_right _ _).trans (List.sublist_append_left _ _)
  exact hall.sublist (hsub.trans hmid)

/-- **At the return** every task was called once, and every call has returned. -/
theorem IdleInv.at_return (hinv : IdleInv servers numTask s) (hm : s.main = .returned) :
    s.calls.map Prod.snd ~ List.range numTask ∧ s.completed ~ s.calls := by
  have hlen := hinv.names.length_eq
  have hdrained := hinv.drained
  rw [hm] at hlen hdrained
  simp only [List.length_append, IdleMain.filledNames, IdleMain.drainedCount] at hlen hdrained
  -- all names are drained, so every goroutine has put its name back
  have hnil : s.gos.filterMap TaskGo.name = [] := List.length_eq_zero_iff.mp (by omega)
  have hexited : ∀ g ∈ s.gos, g.pc = .exited := by
    intro g hg
    have hname := List.filterMap_eq_nil_iff.mp hnil g hg
    unfold TaskGo.name at hname
    cases hpc : g.pc with
    | exited => rfl
    | _ =>
        rw [hpc] at hname
        cases hname
  constructor
  · have hbegun : s.calls ~ s.gos.map fun g => (g.srv, g.task) := by
      apply hinv.begun.all_completed
      intro g hg
      unfold TaskGo.toCall
      rw [hexited g hg]
    have htasks := hinv.tasks
    rw [hm] at htasks
    calc s.calls.map Prod.snd
        ~ (s.gos.map fun g => (g.srv, g.task)).map Prod.snd := hbegun.map Prod.snd
      _ = s.gos.map TaskGo.task := by
        rw [List.map_map]
        rfl
      _ = List.range numTask := htasks
  · apply hinv.log.all_completed
    intro g hg
    unfold TaskGo.running
    rw [hexited g hg]

/-- A goroutine that holds a name can move, when `idle` has room. -/
theorem IdleInv.go_step (hinv : IdleInv servers numTask s)
    (hidle : s.idle = []) (hmissing : s.main.names = [])
    (hfilled : s.main.filledNames servers = servers)
    (hdrained : s.drained.length < servers.length) :
    ∃ s', IdleStep servers numTask s s' := by
  have hlen := hinv.names.length_eq
  rw [hidle, hmissing, hfilled] at hlen
  simp only [List.length_append, List.length_nil] at hlen
  have hroom : s.idle.length < servers.length := by
    rw [hidle, List.length_nil]
    omega
  obtain ⟨srv, hsrv⟩ := List.exists_mem_of_length_pos
    (show 0 < (s.gos.filterMap TaskGo.name).length by omega)
  obtain ⟨⟨srv', task, pc⟩, hg, hname⟩ := List.mem_filterMap.mp hsrv
  obtain ⟨j, hj⟩ := List.getElem?_of_mem hg
  cases pc with
  | started => exact ⟨_, .callBegin j srv' task hj⟩
  | calling => exact ⟨_, .callReturn j srv' task hj⟩
  | returning => exact ⟨_, .putBack j srv' task hj hroom⟩
  | exited => cases hname

/-- **Progress**: with at least one server some goroutine can move before the return. -/
theorem IdleInv.progress (hinv : IdleInv servers numTask s) (hne : servers ≠ [])
    (hm : s.main ≠ .returned) : ∃ s', IdleStep servers numTask s s' := by
  have hpos : 0 < servers.length := List.length_pos_iff.mpr hne
  have hdrained := hinv.drained
  cases hmain : s.main with
  | returned => exact absurd hmain hm
  | filling k =>
      rcases Nat.lt_or_ge k servers.length with hk | hk
      · have hroom : s.idle.length < servers.length := by
          have hlen := hinv.names.length_eq
          rw [hmain] at hlen
          simp only [List.length_append, IdleMain.filledNames, List.length_take] at hlen
          omega
        exact ⟨_, .fill k servers[k] hmain (List.getElem?_eq_getElem hk) hroom⟩
      · exact ⟨_, .filled k hmain hk⟩
  | receiving task =>
      rcases Nat.lt_or_ge task numTask with ht | ht
      · cases hidle : s.idle with
        | cons srv rest => exact ⟨_, .receive task srv rest hmain ht hidle⟩
        | nil =>
            -- all names are in the goroutines' hands
            rw [hmain] at hdrained
            simp only [IdleMain.drainedCount] at hdrained
            exact hinv.go_step hidle (by rw [hmain]; rfl) (by rw [hmain]; rfl) (by omega)
      · exact ⟨_, .launched task hmain ht⟩
  | launching task srv => exact ⟨_, .launch task srv hmain⟩
  | draining i =>
      rcases Nat.lt_or_ge i servers.length with hi | hi
      · cases hidle : s.idle with
        | cons srv rest => exact ⟨_, .drain i srv rest hmain hi hidle⟩
        | nil =>
            rw [hmain] at hdrained
            simp only [IdleMain.drainedCount] at hdrained
            exact hinv.go_step hidle (by rw [hmain]; rfl) (by rw [hmain]; rfl) (by omega)
      · exact ⟨_, .mainReturn i hmain hi⟩

end Results

end ComputerScience.Scheduler
