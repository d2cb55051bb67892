/-
  ComputerScience.Lib.CallLog
  ───────────────────────────
  **CALLS THAT ARE BEGUN AND FINISHED BY A POOL OF THREADS.**

  A thread is inside of at most one call; `running` says which.  `calls` is the history of
  the calls begun, `completed` of the calls finished.  The law: the finished calls together
  with those the threads are inside of are the calls begun,

      completed  +  running  =  calls        (as multisets).
-/
import ComputerScience.Lib.Pool

namespace ComputerScience.Lib

open scoped List

variable {α β : Type*} {running : α → Option β} {threads : List α} {calls completed : List β}

/-- The finished calls and those under way are the calls begun. -/
def Balanced (running : α → Option β) (threads : List α) (calls completed : List β) : Prop :=
  (completed ++ threads.filterMap running).Perm calls

/-- A thread is inside of the call `b`. -/
theorem Balanced.mem_calls (h : Balanced running threads calls completed) {i : ℕ} {x : α} {b : β}
    (hi : threads[i]? = some x) (hx : running x = some b) : b ∈ calls := by
  apply h.mem_iff.mp
  apply List.mem_append_right
  exact List.mem_filterMap.mpr ⟨x, List.mem_of_getElem? hi, hx⟩

/-- A thread enters the call `b`. -/
theorem Balanced.enter (h : Balanced running threads calls completed) {i : ℕ} {x y : α} {b : β}
    (hi : threads[i]? = some x) (hx : running x = none) (hy : running y = some b) :
    Balanced running (threads.set i y) (calls ++ [b]) completed := by
  unfold Balanced at h ⊢
  have hset : ((threads.set i y).filterMap running).Perm (b :: threads.filterMap running) :=
    filterMap_set_perm hi hx hy
  calc completed ++ (threads.set i y).filterMap running
      ~ completed ++ b :: threads.filterMap running := hset.append_left completed
    _ ~ b :: (completed ++ threads.filterMap running) := List.perm_middle
    _ ~ b :: calls := h.cons b
    _ ~ calls ++ [b] := (List.perm_append_singleton b calls).symm

/-- A thread leaves its call. -/
theorem Balanced.leave (h : Balanced running threads calls completed) {i : ℕ} {x y : α} {b : β}
    (hi : threads[i]? = some x) (hx : running x = some b) (hy : running y = none) :
    Balanced running (threads.set i y) calls (completed ++ [b]) := by
  unfold Balanced at h ⊢
  have hback := filterMap_set_perm_of_none hi hx hy
  calc completed ++ [b] ++ (threads.set i y).filterMap running
      = completed ++ (b :: (threads.set i y).filterMap running) := by
        rw [List.append_assoc, List.singleton_append]
    _ ~ completed ++ threads.filterMap running := (hback.append_left completed).symm
    _ ~ calls := h

/-- A thread moves outside of its calls, or inside of one. -/
theorem Balanced.keep (h : Balanced running threads calls completed) {i : ℕ} {x y : α}
    (hi : threads[i]? = some x) (hxy : running y = running x) :
    Balanced running (threads.set i y) calls completed := by
  unfold Balanced
  rw [filterMap_set_eq hi hxy]
  exact h

/-- A thread is started outside of any call. -/
theorem Balanced.spawn (h : Balanced running threads calls completed) {y : α}
    (hy : running y = none) : Balanced running (threads ++ [y]) calls completed := by
  unfold Balanced
  rw [List.filterMap_append, List.filterMap_cons_none hy, List.filterMap_nil, List.append_nil]
  exact h

/-- A thread is started inside of the call `b`. -/
theorem Balanced.spawn_running (h : Balanced running threads calls completed) {y : α} {b : β}
    (hy : running y = some b) : Balanced running (threads ++ [y]) (calls ++ [b]) completed := by
  unfold Balanced at h ⊢
  rw [List.filterMap_append, List.filterMap_cons_some hy, List.filterMap_nil, ← List.append_assoc]
  exact h.append_right [b]

/-- **With no thread inside of a call all calls are finished.** -/
theorem Balanced.all_completed (h : Balanced running threads calls completed)
    (hidle : ∀ x ∈ threads, running x = none) : completed ~ calls := by
  have hnil : threads.filterMap running = [] := List.filterMap_eq_nil_iff.mpr hidle
  unfold Balanced at h
  rw [hnil, List.append_nil] at h
  exact h

/-- The number of calls under way is the number of calls begun and not finished. -/
theorem Balanced.length_eq (h : Balanced running threads calls completed) :
    completed.length + (threads.filterMap running).length = calls.length := by
  rw [← List.length_append]
  exact List.Perm.length_eq h

/-- What one view of the threads shows is among what a wider view shows. -/
theorem filterMap_sublist_filterMap {γ : Type*} {f g : α → Option γ} (l : List α)
    (hfg : ∀ x c, f x = some c → g x = some c) : l.filterMap f <+ l.filterMap g := by
  induction l with
  | nil => exact List.Sublist.refl _
  | cons x l ih =>
      cases hf : f x with
      | none =>
          rw [List.filterMap_cons_none hf]
          cases hg : g x with
          | none =>
              rw [List.filterMap_cons_none hg]
              exact ih
          | some d =>
              rw [List.filterMap_cons_some hg]
              exact ih.cons d
      | some c =>
          rw [List.filterMap_cons_some hf, List.filterMap_cons_some (hfg x c hf)]
          exact ih.cons_cons c

end ComputerScience.Lib
