/-
  ComputerScience.Pqsort.TaskQueue
  ────────────────────────────────
  **THE TASK QUEUE** (`26-parallelism/pqsort/taskq.c`, built without `SEM`).

  A singly linked list of thread ids behind a mutex: `spawn_task` links a new node at the
  tail and creates the thread, `join_tasks` takes nodes from the head, joins their threads
  and returns as soon as it once finds the list empty.  That this means that all work is
  done rests on the order of events: a task links its children before it finishes, so the
  tasks that are not joined are always those on the list, in the order they were spawned,
  and the one being joined:

      joined ++ [being joined] ++ [on the list] = all tasks, in spawn order
-/
import ComputerScience.Lib.Chain
import ComputerScience.Lib.Pool
import ComputerScience.Lib.TransitionSystem
import ComputerScience.Lib.Word
import Mathlib.Data.List.Nodup

namespace ComputerScience.Pqsort

open ComputerScience.Lib

/-! ## §1. The queue. -/

/-- `task_queue_t`; `none` is `NULL`. -/
structure TaskQueueT where
  activeCount : ℤ
  maxActiveCount : ℤ
  head : Option ℕ
  tail : Option ℕ

/-- The nodes `task_list_t`: the value of a node is its `tid`. -/
abbrev TaskHeap := ℕ → Option (Node ℕ)

/-- `new_task_queue` -/
def newTaskQueue : TaskQueueT := ⟨0, 0, none, none⟩

/-- `tq->tail->next = ele` -/
def linkAfter (heap : TaskHeap) (t ele : ℕ) : TaskHeap :=
  match heap t with
  | some node => Function.update heap t (some { node with next := some ele })
  | none => heap

/-- The critical section of `spawn_task` for the node `ele` and the new thread `tid`. -/
def spawnTask (tq : TaskQueueT) (heap : TaskHeap) (ele tid : ℕ) : TaskQueueT × TaskHeap :=
  let heap := Function.update heap ele (some ⟨tid, none⟩)
  let active := int32 (tq.activeCount + 1)
  ({ activeCount := active
     maxActiveCount := if active > tq.maxActiveCount then active else tq.maxActiveCount
     -- `if (tq->tail) … else tq->head = ele`
     head := match tq.tail with
      | some _ => tq.head
      | none => some ele
     tail := some ele },
   match tq.tail with
   | some t => linkAfter heap t ele
   | none => heap)

/-- The critical section of `join_tasks` for a nonempty list: `old_head` is unlinked. -/
def unlinkHead (tq : TaskQueueT) (oldHead : ℕ) (node : Node ℕ) : TaskQueueT :=
  { tq with
    head := node.next
    tail := if some oldHead = tq.tail then none else tq.tail
    activeCount := int32 (tq.activeCount - 1) }

/-! ## §2. The tasks and the joining thread. -/

inductive TaskStatus where
  | running
  | finished
  deriving DecidableEq, Repr

/-- Where the thread that owns the queue is. -/
inductive JoinPc where
  /-- before `join_tasks` -/
  | spawning
  /-- at the top of the loop of `join_tasks` -/
  | looping
  /-- before `free((void *) old_head)` -/
  | freeing (oldHead tid : ℕ)
  /-- before `Pthread_join(tid, NULL)` -/
  | joining (tid : ℕ)
  /-- `join_tasks` has returned. -/
  | returned (maxActive : ℤ)
  deriving DecidableEq, Repr

/-- The queue, the heap of its nodes, the tasks by thread id, and the order of the joins. -/
structure TaskRun where
  tq : TaskQueueT
  heap : TaskHeap
  tasks : List TaskStatus
  main : JoinPc
  joined : List ℕ

/-- A task is spawned, with `malloc` returning `ele`. -/
def TaskRun.spawn (s : TaskRun) (ele : ℕ) : TaskRun :=
  { s with
    tq := (spawnTask s.tq s.heap ele s.tasks.length).1
    heap := (spawnTask s.tq s.heap ele s.tasks.length).2
    tasks := s.tasks ++ [.running] }

/-- One step.  `maxThreads` bounds the threads that are created and not joined; beyond it
`pthread_create` fails, and `Pthread_create` ends the program. -/
inductive TaskStep (maxThreads : ℕ) (s : TaskRun) : TaskRun → Prop where
  | spawnMain (ele : ℕ) (hm : s.main = .spawning) (hfresh : s.heap ele = none)
      (hcreate : s.tasks.length < s.joined.length + maxThreads) :
      TaskStep maxThreads s (s.spawn ele)
  | spawnTask (i ele : ℕ) (hi : s.tasks[i]? = some .running) (hfresh : s.heap ele = none)
      (hcreate : s.tasks.length < s.joined.length + maxThreads) :
      TaskStep maxThreads s (s.spawn ele)
  | finish (i : ℕ) (hi : s.tasks[i]? = some .running) :
      TaskStep maxThreads s { s with tasks := s.tasks.set i .finished }
  | joinTasks (hm : s.main = .spawning) : TaskStep maxThreads s { s with main := .looping }
  | unlink (oldHead : ℕ) (node : Node ℕ) (hm : s.main = .looping)
      (hhead : s.tq.head = some oldHead) (hnode : s.heap oldHead = some node) :
      TaskStep maxThreads s
        { s with tq := unlinkHead s.tq oldHead node, main := .freeing oldHead node.val }
  | free (oldHead tid : ℕ) (hm : s.main = .freeing oldHead tid) :
      TaskStep maxThreads s
        { s with heap := Function.update s.heap oldHead none, main := .joining tid }
  | join (tid : ℕ) (hm : s.main = .joining tid) (hfin : s.tasks[tid]? = some .finished) :
      TaskStep maxThreads s { s with main := .looping, joined := s.joined ++ [tid] }
  | ret (hm : s.main = .looping) (hhead : s.tq.head = none) :
      TaskStep maxThreads s { s with main := .returned s.tq.maxActiveCount }

/-- A fresh queue, and every tree of tasks on it. -/
def taskSystem (maxThreads : ℕ) : System TaskRun where
  init s := s = ⟨newTaskQueue, fun _ => none, [], .spawning, []⟩
  step := TaskStep maxThreads

/-! ## §3. The invariant. -/

/-- The list in the heap: its nodes, `tail` and the count. -/
structure Represents (tq : TaskQueueT) (heap : TaskHeap) (nodes : List (ℕ × ℕ)) : Prop where
  chain : Chain heap tq.head nodes
  nodup : (nodes.map Prod.fst).Nodup
  tail : tq.tail = nodes.getLast?.map Prod.fst
  count : tq.activeCount = nodes.length

/-- The task taken from the list and not joined yet. -/
def JoinPc.current : JoinPc → List ℕ
  | .freeing _ tid | .joining tid => [tid]
  | _ => []

structure TaskInv (maxThreads : ℕ) (s : TaskRun) (nodes : List (ℕ × ℕ)) : Prop where
  repr : Represents s.tq s.heap nodes
  /-- Every task is joined, being joined, or on the list. -/
  order : s.joined ++ s.main.current ++ nodes.map Prod.snd = List.range s.tasks.length
  finished : ∀ tid ∈ s.joined, s.tasks[tid]? = some .finished
  /-- The node about to be freed is off the list, and still allocated. -/
  freeing : ∀ oldHead tid, s.main = .freeing oldHead tid →
    oldHead ∉ nodes.map Prod.fst ∧ s.heap oldHead ≠ none
  returned : ∀ n, s.main = .returned n → nodes = []
  threads : s.tasks.length ≤ s.joined.length + maxThreads

/-- **`spawn_task` appends a node.** -/
theorem Represents.spawn {tq : TaskQueueT} {heap : TaskHeap} {nodes : List (ℕ × ℕ)}
    (h : Represents tq heap nodes) {ele : ℕ} (tid : ℕ) (hfresh : heap ele = none)
    (hcount : nodes.length + 1 < 2 ^ 31) :
    Represents (spawnTask tq heap ele tid).1 (spawnTask tq heap ele tid).2
      (nodes ++ [(ele, tid)]) := by
  have hnot : ele ∉ nodes.map Prod.fst := fun hmem => h.chain.allocated hmem hfresh
  constructor
  · rcases List.eq_nil_or_concat nodes with hnil | ⟨l, ⟨t, v⟩, hlast⟩
    · -- the list was empty: the new node is head and tail
      have htail : tq.tail = none := by simpa [hnil] using h.tail
      simp only [spawnTask, htail, hnil, List.nil_append]
      exact chain_singleton ele tid
    · -- the old tail is linked to the new node
      rw [List.concat_eq_append] at hlast
      subst hlast
      have htail : tq.tail = some t := by simpa using h.tail
      have hne : t ≠ ele := by
        intro he
        exact hnot (by simp [he])
      have hlink : linkAfter (Function.update heap ele (some ⟨tid, none⟩)) t ele =
          Function.update (Function.update heap ele (some ⟨tid, none⟩)) t (some ⟨v, some ele⟩) := by
        unfold linkAfter
        rw [Function.update_of_ne hne, h.chain.last]
      simp only [spawnTask, htail, hlink]
      exact h.chain.concat h.nodup hnot
  · -- `malloc` does not return a node of the list
    rw [List.map_append, List.nodup_append]
    refine ⟨h.nodup, by simp, ?_⟩
    intro a ha b hb
    rw [List.map_cons, List.map_nil, List.mem_singleton] at hb
    intro hab
    rw [hab, hb] at ha
    exact hnot ha
  · simp [spawnTask]
  · simp only [spawnTask]
    -- `active_count++` does not wrap
    rw [h.count, int32_of_range (by omega) (by omega), List.length_append, List.length_singleton]
    push_cast
    rfl

/-- `spawn_task` frees nothing. -/
theorem spawnTask_allocated {tq : TaskQueueT} {heap : TaskHeap} {ele tid a : ℕ}
    (ha : heap a ≠ none) : (spawnTask tq heap ele tid).2 a ≠ none := by
  have hupd : ∀ {heap : TaskHeap} {b : ℕ} {node : Node ℕ}, heap a ≠ none →
      Function.update heap b (some node) a ≠ none := by
    intro heap b node h
    by_cases hb : a = b
    · simp [hb]
    · rw [Function.update_of_ne hb]
      exact h
  simp only [spawnTask]
  cases tq.tail with
  | none => exact hupd ha
  | some t =>
      simp only [linkAfter]
      cases Function.update heap ele (some ⟨tid, none⟩) t with
      | some node => exact hupd (hupd ha)
      | none => exact hupd ha

/-- **`join_tasks` takes the first node.** -/
theorem Represents.unlink {tq : TaskQueueT} {heap : TaskHeap} {nodes : List (ℕ × ℕ)}
    (h : Represents tq heap nodes) {oldHead : ℕ} {node : Node ℕ} (hhead : tq.head = some oldHead)
    (hnode : heap oldHead = some node) (hcount : nodes.length < 2 ^ 31) :
    ∃ rest, nodes = (oldHead, node.val) :: rest ∧
      Represents (unlinkHead tq oldHead node) heap rest := by
  obtain ⟨hchain, hnodup, htail, hactive⟩ := h
  cases nodes with
  | nil =>
      rw [chain_nil, hhead] at hchain
      exact absurd hchain (by simp)
  | cons x rest =>
      obtain ⟨a, v⟩ := x
      obtain ⟨ha, q, hnode', hrest⟩ := hchain
      obtain rfl : oldHead = a := Option.some.inj (hhead.symm.trans ha)
      obtain rfl : node = ⟨v, q⟩ := Option.some.inj (hnode.symm.trans hnode')
      rw [List.map_cons, List.nodup_cons] at hnodup
      refine ⟨rest, rfl, hrest, hnodup.2, ?_, ?_⟩
      · -- the tail is reset when the last node goes
        rcases List.eq_nil_or_concat rest with hnil | ⟨l, ⟨t, u⟩, hlast⟩
        · subst hnil
          simp [unlinkHead, htail]
        · rw [List.concat_eq_append] at hlast
          subst hlast
          have hne : oldHead ≠ t := by
            intro he
            exact hnodup.1 (by simp [he])
          simp only [unlinkHead, htail]
          rw [if_neg (by simp [List.getLast?_cons, hne])]
          simp [List.getLast?_cons]
      · simp only [unlinkHead, hactive, List.length_cons] at hcount ⊢
        rw [int32_of_range (by omega) (by omega)]
        push_cast
        omega

/-! ## §4. One step. -/

section Steps

variable {maxThreads : ℕ} {s : TaskRun} {nodes : List (ℕ × ℕ)}

/-- The tasks that are not joined. -/
theorem TaskInv.length_eq (hinv : TaskInv maxThreads s nodes) :
    s.joined.length + s.main.current.length + nodes.length = s.tasks.length := by
  have := congrArg List.length hinv.order
  simpa [List.length_append, Nat.add_assoc] using this

/-- A task is spawned while the list cannot have been found empty. -/
theorem TaskInv.spawn (hmax : maxThreads < 2 ^ 31) (hinv : TaskInv maxThreads s nodes) {ele : ℕ}
    (hmain : ∀ n, s.main ≠ .returned n) (hfresh : s.heap ele = none)
    (hcreate : s.tasks.length < s.joined.length + maxThreads) :
    TaskInv maxThreads (s.spawn ele) (nodes ++ [(ele, s.tasks.length)]) := by
  have hlen := hinv.length_eq
  have hrepr := hinv.repr.spawn s.tasks.length hfresh (by omega)
  constructor
  · exact hrepr
  · -- the new thread id is the next number
    show s.joined ++ s.main.current ++ (nodes ++ [(ele, s.tasks.length)]).map Prod.snd =
      List.range (s.tasks ++ [TaskStatus.running]).length
    rw [List.map_append, ← List.append_assoc, hinv.order, List.length_append,
      List.length_singleton, List.range_succ]
    rfl
  · intro tid htid
    have hfin := hinv.finished tid htid
    show (s.tasks ++ [TaskStatus.running])[tid]? = some .finished
    rw [List.getElem?_append_left (List.getElem?_eq_some_iff.mp hfin).1]
    exact hfin
  · -- the node being freed is not the new one: it is still allocated
    intro oldHead tid hm
    obtain ⟨hoff, halloc⟩ := hinv.freeing oldHead tid hm
    refine ⟨?_, spawnTask_allocated halloc⟩
    rw [List.map_append, List.mem_append]
    rintro (hmem | hmem)
    · exact hoff hmem
    · rw [List.map_cons, List.map_nil, List.mem_singleton] at hmem
      exact halloc (hmem ▸ hfresh)
  · intro n hn
    exact absurd hn (hmain n)
  · show (s.tasks ++ [TaskStatus.running]).length ≤ s.joined.length + maxThreads
    rw [List.length_append, List.length_singleton]
    omega

/-- Once the list was found empty no task runs. -/
theorem TaskInv.all_joined (hinv : TaskInv maxThreads s []) (hcur : s.main.current = []) :
    s.joined = List.range s.tasks.length ∧
      ∀ tid, tid < s.tasks.length → s.tasks[tid]? = some .finished := by
  have horder := hinv.order
  rw [hcur, List.map_nil, List.append_nil, List.append_nil] at horder
  refine ⟨horder, ?_⟩
  intro tid htid
  exact hinv.finished tid (by rw [horder]; exact List.mem_range.mpr htid)

/-- A running task keeps `join_tasks` from returning. -/
theorem TaskInv.not_returned (hinv : TaskInv maxThreads s nodes) {i : ℕ}
    (hi : s.tasks[i]? = some .running) (n : ℤ) : s.main ≠ .returned n := by
  intro hn
  obtain rfl := hinv.returned n hn
  have hlt := (List.getElem?_eq_some_iff.mp hi).1
  -- all tasks are joined by then, so they are finished
  have hfin := (hinv.all_joined (by rw [hn]; rfl)).2 i hlt
  rw [hi] at hfin
  exact absurd hfin (by simp)

/-- A finished task stays finished. -/
theorem TaskInv.finish (hinv : TaskInv maxThreads s nodes) {i : ℕ}
    (hi : s.tasks[i]? = some .running) :
    TaskInv maxThreads { s with tasks := s.tasks.set i .finished } nodes := by
  refine ⟨hinv.repr, ?_, ?_, hinv.freeing, hinv.returned, ?_⟩
  · show _ = List.range (s.tasks.set i .finished).length
    rw [List.length_set]
    exact hinv.order
  · intro tid htid
    rcases getElem?_set_of_some TaskStatus.finished hi (hinv.finished tid htid)
      with ⟨_, _, h⟩ | ⟨_, h⟩
    · exact h
    · exact h
  · show (s.tasks.set i .finished).length ≤ _
    rw [List.length_set]
    exact hinv.threads

/-- The node goes from the list to the join. -/
theorem TaskInv.unlink (hmax : maxThreads < 2 ^ 31) (hinv : TaskInv maxThreads s nodes)
    {oldHead : ℕ} {node : Node ℕ} (hm : s.main = .looping) (hhead : s.tq.head = some oldHead)
    (hnode : s.heap oldHead = some node) :
    ∃ rest, TaskInv maxThreads
      { s with tq := unlinkHead s.tq oldHead node, main := .freeing oldHead node.val } rest := by
  have hlen := hinv.length_eq
  have hthreads := hinv.threads
  obtain ⟨rest, rfl, hrest⟩ := hinv.repr.unlink hhead hnode (by omega)
  have horder := hinv.order
  rw [hm] at horder
  refine ⟨rest, hrest, ?_, hinv.finished, ?_, ?_, hthreads⟩
  · rw [← horder]
    simp [JoinPc.current]
  · intro a tid h
    injection h with h _
    have hnodup := hinv.repr.nodup
    rw [List.map_cons, List.nodup_cons] at hnodup
    refine ⟨h ▸ hnodup.1, ?_⟩
    show s.heap a ≠ none
    rw [← h, hnode]
    simp
  · intro n h
    exact absurd h (by simp)

/-- `join_tasks` moves on between two joins, with the same task in hand and the list as it
is. -/
theorem TaskInv.moveOn (hinv : TaskInv maxThreads s nodes) {pc : JoinPc} {heap : TaskHeap}
    (hrepr : Represents s.tq heap nodes) (hcur : pc.current = s.main.current)
    (hpc : ∀ oldHead tid, pc ≠ .freeing oldHead tid)
    (hret : ∀ n, pc = .returned n → nodes = []) :
    TaskInv maxThreads { s with heap := heap, main := pc } nodes := by
  refine ⟨hrepr, ?_, hinv.finished, ?_, hret, hinv.threads⟩
  · show s.joined ++ pc.current ++ _ = _
    rw [hcur]
    exact hinv.order
  · intro oldHead tid h
    exact absurd h (hpc oldHead tid)

/-- The freed node is off the list, so the chain does not notice. -/
theorem TaskInv.free (hinv : TaskInv maxThreads s nodes) {oldHead tid : ℕ}
    (hm : s.main = .freeing oldHead tid) :
    TaskInv maxThreads
      { s with heap := Function.update s.heap oldHead none, main := .joining tid } nodes := by
  obtain ⟨hoff, _⟩ := hinv.freeing oldHead tid hm
  apply hinv.moveOn
  · refine ⟨?_, hinv.repr.nodup, hinv.repr.tail, hinv.repr.count⟩
    refine hinv.repr.chain.congr ?_
    intro a ha
    rw [Function.update_of_ne]
    intro he
    exact hoff (he ▸ ha)
  · rw [hm]
    rfl
  · simp
  · simp

/-- The task in hand is joined. -/
theorem TaskInv.join (hinv : TaskInv maxThreads s nodes) {tid : ℕ} (hm : s.main = .joining tid)
    (hfin : s.tasks[tid]? = some .finished) :
    TaskInv maxThreads { s with main := .looping, joined := s.joined ++ [tid] } nodes := by
  have hthreads := hinv.threads
  have horder := hinv.order
  rw [hm] at horder
  refine ⟨hinv.repr, ?_, ?_, ?_, ?_, ?_⟩
  · rw [← horder]
    simp [JoinPc.current]
  · intro t ht
    rcases List.mem_append.mp ht with ht | ht
    · exact hinv.finished t ht
    · rw [List.mem_singleton.mp ht]
      exact hfin
  · intro a t h
    exact absurd h (by simp)
  · intro n h
    exact absurd h (by simp)
  · show s.tasks.length ≤ (s.joined ++ [tid]).length + maxThreads
    rw [List.length_append]
    omega

/-- **One step keeps the invariant.** -/
theorem TaskInv.step (hmax : maxThreads < 2 ^ 31) (hinv : TaskInv maxThreads s nodes)
    {s' : TaskRun} (hstep : TaskStep maxThreads s s') : ∃ nodes', TaskInv maxThreads s' nodes' := by
  cases hstep with
  | spawnMain ele hm hfresh hcreate =>
      exact ⟨_, hinv.spawn hmax (by intro n; rw [hm]; simp) hfresh hcreate⟩
  -- a task that spawns is running, so `join_tasks` has not returned
  | spawnTask i ele hi hfresh hcreate =>
      exact ⟨_, hinv.spawn hmax (hinv.not_returned hi) hfresh hcreate⟩
  | finish i hi => exact ⟨nodes, hinv.finish hi⟩
  | joinTasks hm =>
      exact ⟨nodes, hinv.moveOn hinv.repr (by rw [hm]; rfl) (by simp) (by simp)⟩
  | unlink oldHead node hm hhead hnode => exact hinv.unlink hmax hm hhead hnode
  | free oldHead tid hm => exact ⟨nodes, hinv.free hm⟩
  | join tid hm hfin => exact ⟨nodes, hinv.join hm hfin⟩
  -- `head == NULL`: nothing is on the list
  | ret hm hhead =>
      have hnil : nodes = [] := hinv.repr.chain.eq_none_iff.mp hhead
      exact ⟨nodes, hinv.moveOn hinv.repr (by rw [hm]; rfl) (by simp) (fun _ _ => hnil)⟩

end Steps

/-! ## §5. Whole runs. -/

theorem task_invariant {maxThreads : ℕ} (hmax : maxThreads < 2 ^ 31) {s : TaskRun}
    (hs : (taskSystem maxThreads).Reachable s) : ∃ nodes, TaskInv maxThreads s nodes := by
  refine hs.invariant (I := fun s => ∃ nodes, TaskInv maxThreads s nodes) ?_ ?_
  · intro s h0
    rw [show s = _ from h0]
    refine ⟨[], ⟨rfl, by simp, rfl, rfl⟩, rfl, by simp, ?_, ?_, by simp⟩
    · intro a t h
      exact absurd h (by simp)
    · intro n h
      exact absurd h (by simp)
  · intro s s' _ hinv hstep
    obtain ⟨nodes, hinv⟩ := hinv
    exact hinv.step hmax hstep

/-- **The task queue.**  In every reachable state the nodes reached from `head` are a list
that ends in `tail` and has `active_count` nodes, and `head` is `NULL` exactly if `tail`
is; and when `join_tasks` has returned, every task ever spawned on the queue has finished
and was joined exactly once. -/
theorem taskQueue_joins_all (maxThreads : ℕ) (hmax : maxThreads < 2 ^ 31) (s : TaskRun)
    (hs : (taskSystem maxThreads).Reachable s) :
    ((s.tq.head = none ↔ s.tq.tail = none) ∧
      ∃ nodes : List (ℕ × ℕ), Chain s.heap s.tq.head nodes ∧
        s.tq.tail = nodes.getLast?.map Prod.fst ∧ s.tq.activeCount = nodes.length) ∧
    ∀ n, s.main = .returned n → ∀ tid, tid < s.tasks.length →
      s.tasks[tid]? = some .finished ∧ s.joined.count tid = 1 := by
  obtain ⟨nodes, hinv⟩ := task_invariant hmax hs
  obtain ⟨hchain, hnodup, htail, hcount⟩ := hinv.repr
  refine ⟨⟨?_, nodes, hchain, htail, hcount⟩, ?_⟩
  · rw [hchain.eq_none_iff, htail]
    simp
  · intro n hn tid htid
    obtain rfl := hinv.returned n hn
    obtain ⟨hjoined, hfin⟩ := hinv.all_joined (by rw [hn]; rfl)
    refine ⟨hfin tid htid, ?_⟩
    rw [hjoined]
    exact List.count_eq_one_of_mem List.nodup_range (List.mem_range.mpr htid)

/-- A task that spawns another one, and the joins of both. -/
theorem taskQueue_joins_all_parentChild :
    ∃ s, (taskSystem 4).Reachable s ∧ s.main = .returned 2 ∧ s.tasks.length = 2 ∧
      s.joined.count 1 = 1 := by
  have hinit : (taskSystem 4).Reachable ⟨newTaskQueue, fun _ => none, [], .spawning, []⟩ :=
    System.Reachable.of_init rfl
  have hspawned := ((hinit.tail (TaskStep.spawnMain 10 rfl rfl (by decide))).tail
    (TaskStep.joinTasks rfl)).tail (TaskStep.spawnTask 0 11 rfl rfl (by decide))
  have hdone := (hspawned.tail (TaskStep.finish 0 rfl)).tail (TaskStep.finish 1 rfl)
  have hfirst := ((hdone.tail (TaskStep.unlink 10 ⟨0, some 11⟩ rfl rfl rfl)).tail
    (TaskStep.free 10 0 rfl)).tail (TaskStep.join 0 rfl rfl)
  have hsecond := ((hfirst.tail (TaskStep.unlink 11 ⟨1, none⟩ rfl rfl rfl)).tail
    (TaskStep.free 11 1 rfl)).tail (TaskStep.join 1 rfl rfl)
  have hret := hsecond.tail (TaskStep.ret rfl rfl)
  exact ⟨_, hret, rfl, rfl,
    ((taskQueue_joins_all 4 (by decide) _ hret).2 _ rfl 1 (by decide)).2⟩

end ComputerScience.Pqsort
