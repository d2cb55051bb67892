/-
  ComputerScience.Replicated.Fanout
  ─────────────────────────────────
  **ONE GOROUTINE PER SERVER, ONE RESULT CHANNEL**: the part that the calls of
  `03_replicated_service_client/client.go` share.

  A call starts goroutines that run `callOne(servers[id], args)` and send the result on
  the call's own channel `done`, buffered for one result per server.  The history
  `produced` holds what `callOne` returned to this call; a result is in the channel or in
  a goroutine's hands only if it is in that history.
-/
import ComputerScience.Lib.Pool
import Mathlib.Data.Nat.Notation

namespace ComputerScience.Replicated

open ComputerScience.Lib

variable {Args Reply : Type}

/-! ## §1. The goroutines of one call. -/

/-- What `Init` is given: the servers and the replies `callOne` may come back with; and
Go's zero value of `Reply`. -/
structure Service (Args Reply : Type) where
  servers : List String
  callOne : String → Args → Reply → Prop
  zero : Reply

/-- `type result struct` -/
structure Result (Reply : Type) where
  serverId : ℕ
  reply : Reply

/-- A goroutine `done <- result{id, c.callOne(c.servers[id], args)}`. -/
inductive Goroutine (Reply : Type) where
  /-- inside `callOne` -/
  | calling (id : ℕ)
  /-- before the send -/
  | sending (r : Result Reply)
  | exited

structure Fanout (Reply : Type) where
  goroutines : List (Goroutine Reply)
  /-- The buffer of `done := make(chan result, len(c.servers))`. -/
  done : List (Result Reply)
  /-- What `callOne` has returned to this call so far. -/
  produced : List (Result Reply)

def Fanout.empty : Fanout Reply := ⟨[], [], []⟩

/-- `go func() { … }()` for the server `id`. -/
def Fanout.spawn (f : Fanout Reply) (id : ℕ) : Fanout Reply :=
  { f with goroutines := f.goroutines ++ [.calling id] }

/-- A step of one goroutine. -/
inductive FanoutStep (svc : Service Args Reply) (args : Args) (f : Fanout Reply) :
    Fanout Reply → Prop where
  | produce (j id : ℕ) (srv : String) (v : Reply)
      (hj : f.goroutines[j]? = some (.calling id)) (hsrv : svc.servers[id]? = some srv)
      (hv : svc.callOne srv args v) :
      FanoutStep svc args f
        { f with
          goroutines := f.goroutines.set j (.sending ⟨id, v⟩)
          produced := f.produced ++ [⟨id, v⟩] }
  | send (j : ℕ) (r : Result Reply) (hj : f.goroutines[j]? = some (.sending r))
      (hroom : f.done.length < svc.servers.length) :
      FanoutStep svc args f
        { f with goroutines := f.goroutines.set j .exited, done := f.done ++ [r] }

/-! ## §2. Every result was produced. -/

/-- Where the results of a call come from. -/
structure Fanout.Sound (svc : Service Args Reply) (args : Args) (f : Fanout Reply) : Prop where
  sending : ∀ (j : ℕ) (r : Result Reply), f.goroutines[j]? = some (.sending r) → r ∈ f.produced
  done : ∀ r ∈ f.done, r ∈ f.produced
  produced : ∀ r ∈ f.produced, ∃ srv, svc.servers[r.serverId]? = some srv ∧
    svc.callOne srv args r.reply

variable {svc : Service Args Reply} {args : Args} {f f' : Fanout Reply}

theorem Fanout.Sound.empty : (Fanout.empty : Fanout Reply).Sound svc args := by
  constructor <;> simp [Fanout.empty]

theorem Fanout.Sound.spawn (h : f.Sound svc args) (id : ℕ) : (f.spawn id).Sound svc args := by
  constructor
  · intro j r hj
    rcases List.mem_append.mp (List.mem_of_getElem? hj) with hold | hnew
    · obtain ⟨i, hi⟩ := List.getElem?_of_mem hold
      exact h.sending i r hi
    · exact absurd (List.mem_singleton.mp hnew) (by simp)
  · exact h.done
  · exact h.produced

/-- Receiving the first result leaves the rest. -/
theorem Fanout.Sound.recv (h : f.Sound svc args) {r : Result Reply} {rest : List (Result Reply)}
    (hdone : f.done = r :: rest) :
    r ∈ f.produced ∧ Fanout.Sound svc args { f with done := rest } := by
  refine ⟨h.done r (by rw [hdone]; simp), h.sending, ?_, h.produced⟩
  intro r' hr'
  exact h.done r' (by rw [hdone]; exact List.mem_cons_of_mem r hr')

/-- A goroutine's step only adds to the history. -/
theorem FanoutStep.produced_mono (hstep : FanoutStep svc args f f') {r : Result Reply}
    (hr : r ∈ f.produced) : r ∈ f'.produced := by
  cases hstep with
  | produce j id srv v hj hsrv hv => exact List.mem_append_left _ hr
  | send j r' hj hroom => exact hr

theorem Fanout.Sound.step (h : f.Sound svc args) (hstep : FanoutStep svc args f f') :
    f'.Sound svc args := by
  cases hstep with
  | produce j id srv v hj hsrv hv =>
      constructor
      · intro i r hi
        rcases getElem?_set_cases hi with ⟨_, hr⟩ | ⟨_, hi'⟩
        · injection hr with hr
          rw [hr]
          exact List.mem_append_right _ (List.mem_singleton.mpr rfl)
        · exact List.mem_append_left _ (h.sending i r hi')
      · intro r hr
        exact List.mem_append_left _ (h.done r hr)
      · intro r hr
        rcases List.mem_append.mp hr with hold | hnew
        · exact h.produced r hold
        · rw [List.mem_singleton.mp hnew]
          exact ⟨srv, hsrv, hv⟩
  | send j r hj hroom =>
      constructor
      · intro i r' hi
        rcases getElem?_set_cases hi with ⟨_, hr⟩ | ⟨_, hi'⟩
        · exact absurd hr (by simp)
        · exact h.sending i r' hi'
      · intro r' hr'
        rcases List.mem_append.mp hr' with hold | hnew
        · exact h.done r' hold
        · rw [List.mem_singleton.mp hnew]
          exact h.sending j r hj
      · exact h.produced

end ComputerScience.Replicated
