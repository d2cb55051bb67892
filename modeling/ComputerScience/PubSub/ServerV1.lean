/-
  ComputerScience.PubSub.ServerV1
  ───────────────────────────────
  **THE PUBLISH/SUBSCRIBE SERVER UNDER ONE MUTEX**
  (`01_publish_subscribe/server_v1.go`).

  `Publish`, `Subscribe` and `Cancel` run under `s.mu`; `Publish` sends to every key of the
  map `s.sub`, in any order, and waits for slow receivers while it holds the mutex.

  The calls are ordered by their `s.mu.Lock()`; `window c` is the list of the events of the
  `Publish` calls between the `Subscribe` and the `Cancel` of `c` in that order.
-/
import ComputerScience.Lib.Pool
import ComputerScience.Lib.TransitionSystem
import Mathlib.Data.Finset.Basic
import Mathlib.Logic.Function.Basic

namespace ComputerScience.PubSub

open ComputerScience.Lib
open scoped List

/-! ## §1. The calls and the order of their events. -/

/-- A call of a method of `ServerV1`.  A value of type `chan<- Event` is a channel or nil. -/
inductive V1Call (C E : Type) where
  | publish (e : E)
  | subscribe (c : Option C)
  | cancel (c : Option C)

variable {C E : Type} [DecidableEq C]

/-- The keys of `s.sub` after a call.  A `Subscribe` of a subscribed channel, a `Cancel` of
one that is not, and a `Cancel` of nil (`close` of nil panics) change nothing. -/
def V1Call.apply (sub : Finset (Option C)) : V1Call C E → Finset (Option C)
  | .publish _ => sub
  | .subscribe c => insert c sub
  | .cancel none => sub
  | .cancel (some c) => sub.erase (some c)

/-- The subscribed channels after the calls of `calls`, from first to last. -/
def subscribers (calls : List (V1Call C E)) : Finset (Option C) :=
  calls.foldl V1Call.apply ∅

/-- The event of the `k`-th call, if that is a `Publish` at which `c` was subscribed. -/
def eventAt (c : Option C) (calls : List (V1Call C E)) (k : ℕ) : Option (ℕ × E) :=
  match calls[k]? with
  | some (.publish e) => if c ∈ subscribers (calls.take k) then some (k, e) else none
  | _ => none

/-- **The subscription of `c`**: the events of the `Publish` calls between its `Subscribe`
and its `Cancel`, each with its place in the order of the calls. -/
def window (c : Option C) (calls : List (V1Call C E)) : List (ℕ × E) :=
  (List.range calls.length).filterMap (eventAt c calls)

/-! ## §2. The server. -/

/-- Why a call panicked. -/
inductive V1Panic where
  /-- `panic("pubsub: already subscribed")` -/
  | alreadySubscribed
  /-- `panic("pubsub: not subscribed")` -/
  | notSubscribed
  | sendOnClosedChannel
  | closeOfClosedChannel
  | closeOfNilChannel
  deriving DecidableEq, Repr

/-- Where a goroutine that calls the methods is. -/
inductive V1Pc (C E : Type) where
  | idle
  /-- before `s.mu.Lock()` -/
  | locking (call : V1Call C E)
  /-- in `for c := range s.sub { c <- e }`, with the channels still to be served; `k` is
  the place of the call in the order of the calls -/
  | sending (k : ℕ) (e : E) (rest : Finset (Option C))
  /-- in `Subscribe`, before `if s.sub[c]` -/
  | subscribing (c : Option C)
  /-- in `Cancel`, before `if !s.sub[c]` -/
  | cancelling (c : Option C)
  /-- in `Cancel`, after `close(c)` and before `delete(s.sub, c)` -/
  | deleting (c : C)
  /-- before the deferred `s.mu.Unlock()`, after a panic or not -/
  | unlocking (panic : Option V1Panic)
  /-- the caller has caught the panic of its call -/
  | panicked (panic : V1Panic)

/-- A subscriber's channel: what was sent on it, how much of it the receivers took, and
whether it is closed. -/
structure V1Chan (E : Type) where
  sent : List (ℕ × E)
  taken : ℕ
  closed : Bool

/-- What the receivers of the channel saw. -/
def V1Chan.received (ch : V1Chan E) : List (ℕ × E) := ch.sent.take ch.taken

structure ServerV1 (C E : Type) where
  callers : List (V1Pc C E)
  /-- The goroutine that holds `s.mu`. -/
  mu : Option ℕ
  /-- The keys of the map `s.sub`, whose values are all true. -/
  sub : Finset (Option C)
  chan : Option C → V1Chan E
  /-- The calls in the order of their `s.mu.Lock()`. -/
  calls : List (V1Call C E)
  /-- The keys of `s.sub` at the last `s.mu.Lock()`. -/
  atLock : Finset (Option C)

/-- Where a call goes on after its `s.mu.Lock()`. -/
def V1Call.enter (k : ℕ) (sub : Finset (Option C)) : V1Call C E → V1Pc C E
  | .publish e => .sending k e sub
  | .subscribe c => .subscribing c
  | .cancel c => .cancelling c

/-- Where a call is after its deferred `s.mu.Unlock()`. -/
def V1Pc.leave : Option V1Panic → V1Pc C E
  | none => .idle
  | some p => .panicked p

/-- One step; `cap c` is the capacity of the channel `c`.  A send needs room in the buffer
or a waiting receiver; on nil it waits for ever. -/
inductive V1Step (cap : C → ℕ) (s : ServerV1 C E) : ServerV1 C E → Prop where
  | call (i : ℕ) (call : V1Call C E) (h : s.callers[i]? = some .idle) :
      V1Step cap s { s with callers := s.callers.set i (.locking call) }
  | lock (i : ℕ) (call : V1Call C E) (h : s.callers[i]? = some (.locking call))
      (hmu : s.mu = none) :
      V1Step cap s { s with
        callers := s.callers.set i (call.enter s.calls.length s.sub)
        mu := some i
        calls := s.calls ++ [call]
        atLock := s.sub }
  | send (i k : ℕ) (e : E) (rest : Finset (Option C)) (c : C)
      (h : s.callers[i]? = some (.sending k e rest)) (hc : some c ∈ rest)
      (hopen : (s.chan (some c)).closed = false)
      (hroom : (s.chan (some c)).sent.length < (s.chan (some c)).taken + cap c) :
      V1Step cap s { s with
        callers := s.callers.set i (.sending k e (rest.erase (some c)))
        chan := Function.update s.chan (some c)
          { s.chan (some c) with sent := (s.chan (some c)).sent ++ [(k, e)] } }
  -- a receiver waits at the empty channel: it takes the event at once
  | sendReceive (i k : ℕ) (e : E) (rest : Finset (Option C)) (c : C)
      (h : s.callers[i]? = some (.sending k e rest)) (hc : some c ∈ rest)
      (hopen : (s.chan (some c)).closed = false)
      (hempty : (s.chan (some c)).sent.length = (s.chan (some c)).taken) :
      V1Step cap s { s with
        callers := s.callers.set i (.sending k e (rest.erase (some c)))
        chan := Function.update s.chan (some c)
          { s.chan (some c) with
            sent := (s.chan (some c)).sent ++ [(k, e)]
            taken := (s.chan (some c)).taken + 1 } }
  | sendClosed (i k : ℕ) (e : E) (rest : Finset (Option C)) (c : C)
      (h : s.callers[i]? = some (.sending k e rest)) (hc : some c ∈ rest)
      (hclosed : (s.chan (some c)).closed = true) :
      V1Step cap s { s with
        callers := s.callers.set i (.unlocking (some .sendOnClosedChannel)) }
  | publishEnd (i k : ℕ) (e : E) (h : s.callers[i]? = some (.sending k e ∅)) :
      V1Step cap s { s with callers := s.callers.set i (.unlocking none) }
  | subscribe (i : ℕ) (c : Option C) (h : s.callers[i]? = some (.subscribing c))
      (hsub : c ∉ s.sub) :
      V1Step cap s { s with
        callers := s.callers.set i (.unlocking none)
        sub := insert c s.sub }
  | subscribePanic (i : ℕ) (c : Option C) (h : s.callers[i]? = some (.subscribing c))
      (hsub : c ∈ s.sub) :
      V1Step cap s { s with
        callers := s.callers.set i (.unlocking (some .alreadySubscribed)) }
  | cancelPanic (i : ℕ) (c : Option C) (h : s.callers[i]? = some (.cancelling c))
      (hsub : c ∉ s.sub) :
      V1Step cap s { s with callers := s.callers.set i (.unlocking (some .notSubscribed)) }
  | closeNil (i : ℕ) (h : s.callers[i]? = some (.cancelling none)) (hsub : none ∈ s.sub) :
      V1Step cap s { s with callers := s.callers.set i (.unlocking (some .closeOfNilChannel)) }
  | closeClosed (i : ℕ) (c : C) (h : s.callers[i]? = some (.cancelling (some c)))
      (hsub : some c ∈ s.sub) (hclosed : (s.chan (some c)).closed = true) :
      V1Step cap s { s with
        callers := s.callers.set i (.unlocking (some .closeOfClosedChannel)) }
  | close (i : ℕ) (c : C) (h : s.callers[i]? = some (.cancelling (some c)))
      (hsub : some c ∈ s.sub) (hopen : (s.chan (some c)).closed = false) :
      V1Step cap s { s with
        callers := s.callers.set i (.deleting c)
        chan := Function.update s.chan (some c) { s.chan (some c) with closed := true } }
  | delete (i : ℕ) (c : C) (h : s.callers[i]? = some (.deleting c)) :
      V1Step cap s { s with
        callers := s.callers.set i (.unlocking none)
        sub := s.sub.erase (some c) }
  | unlock (i : ℕ) (p : Option V1Panic) (h : s.callers[i]? = some (.unlocking p)) :
      V1Step cap s { s with callers := s.callers.set i (.leave p), mu := none }
  | recover (i : ℕ) (p : V1Panic) (h : s.callers[i]? = some (.panicked p)) :
      V1Step cap s { s with callers := s.callers.set i .idle }
  | receive (c : C) (hbuf : (s.chan (some c)).taken < (s.chan (some c)).sent.length) :
      V1Step cap s { s with
        chan := Function.update s.chan (some c)
          { s.chan (some c) with taken := (s.chan (some c)).taken + 1 } }

/-- `Init`, with any number of callers. -/
def serverV1System (C E : Type) [DecidableEq C] (cap : C → ℕ) : System (ServerV1 C E) where
  init s := (∀ pc ∈ s.callers, pc = .idle) ∧ s.mu = none ∧ s.sub = ∅ ∧
    s.chan = (fun _ => ⟨[], 0, false⟩) ∧ s.calls = []
  step := V1Step cap

/-- The step does not subscribe a channel that a `Cancel` has closed. -/
def NoResubscription (s s' : ServerV1 C E) : Prop :=
  ∀ c, c ∈ s'.sub → c ∉ s.sub → (s.chan c).closed = false

/-! ## §3. The order of the calls. -/

theorem subscribers_concat (calls : List (V1Call C E)) (call : V1Call C E) :
    subscribers (calls ++ [call]) = call.apply (subscribers calls) := by
  unfold subscribers
  rw [List.foldl_append]
  rfl

theorem eventAt_concat {c : Option C} {calls : List (V1Call C E)} (call : V1Call C E) {k : ℕ}
    (hk : k < calls.length) : eventAt c (calls ++ [call]) k = eventAt c calls k := by
  unfold eventAt
  rw [List.getElem?_append_left hk, List.take_append_of_le_length (Nat.le_of_lt hk)]

/-- What a call adds to the subscription of `c`. -/
def V1Call.adds (c : Option C) (k : ℕ) (sub : Finset (Option C)) : V1Call C E → List (ℕ × E)
  | .publish e => if c ∈ sub then [(k, e)] else []
  | _ => []

/-- **One more call**: a `Publish` adds its event to the subscriptions of the subscribed
channels, the other calls add nothing. -/
theorem window_concat (c : Option C) (calls : List (V1Call C E)) (call : V1Call C E) :
    window c (calls ++ [call]) =
      window c calls ++ call.adds c calls.length (subscribers calls) := by
  have hold : (List.range calls.length).filterMap (eventAt c (calls ++ [call])) =
      window c calls := by
    apply List.filterMap_congr
    intro k hk
    exact eventAt_concat call (List.mem_range.mp hk)
  have hnew : [calls.length].filterMap (eventAt c (calls ++ [call])) =
      call.adds c calls.length (subscribers calls) := by
    cases call with
    | publish e =>
        by_cases hc : c ∈ subscribers calls
        · simp [eventAt, V1Call.adds, hc]
        · simp [eventAt, V1Call.adds, hc]
    | subscribe d => simp [eventAt, V1Call.adds]
    | cancel d => simp [eventAt, V1Call.adds]
  show (List.range (calls ++ [call]).length).filterMap _ = _
  rw [List.length_append, List.length_singleton, List.range_succ, List.filterMap_append, hold,
    hnew]

theorem window_mem_lt {c : Option C} {calls : List (V1Call C E)} {x : ℕ × E}
    (hx : x ∈ window c calls) : x.1 < calls.length := by
  obtain ⟨k, hk, he⟩ := List.mem_filterMap.mp hx
  unfold eventAt at he
  split at he
  next e _ =>
    split at he
    next => exact (Option.some.inj he) ▸ List.mem_range.mp hk
    next => exact absurd he (by simp)
  next => exact absurd he (by simp)

theorem V1Call.mem_adds {c : Option C} {k : ℕ} {sub : Finset (Option C)} {call : V1Call C E}
    {x : ℕ × E} (hx : x ∈ call.adds c k sub) : x.1 = k := by
  cases call with
  | publish e =>
      by_cases hc : c ∈ sub
      · simp only [V1Call.adds, hc, if_true, List.mem_singleton] at hx
        rw [hx]
      · simp [V1Call.adds, hc] at hx
  | subscribe d => simp [V1Call.adds] at hx
  | cancel d => simp [V1Call.adds] at hx

theorem V1Call.adds_pairwise (c : Option C) (k : ℕ) (sub : Finset (Option C))
    (call : V1Call C E) : (call.adds c k sub).Pairwise (fun x y => x.1 < y.1) := by
  cases call with
  | publish e => by_cases hc : c ∈ sub <;> simp [V1Call.adds, hc]
  | subscribe d => exact List.Pairwise.nil
  | cancel d => exact List.Pairwise.nil

/-- A subscription is in the order of the calls. -/
theorem window_pairwise (c : Option C) (calls : List (V1Call C E)) :
    (window c calls).Pairwise (fun x y => x.1 < y.1) := by
  induction calls using List.reverseRecOn with
  | nil => exact List.Pairwise.nil
  | append_singleton calls call ih =>
      rw [window_concat, List.pairwise_append]
      refine ⟨ih, V1Call.adds_pairwise c _ _ call, ?_⟩
      intro x hx y hy
      -- the new event has the place of the new call, after all earlier ones
      rw [V1Call.mem_adds hy]
      exact window_mem_lt hx

/-- In a list in the order of the calls, `x` stands before `y` when its call was earlier. -/
theorem pair_sublist_iff {l : List (ℕ × E)} (hl : l.Pairwise (fun x y => x.1 < y.1))
    {x y : ℕ × E} (hx : x ∈ l) (hy : y ∈ l) : [x, y] <+ l ↔ x.1 < y.1 := by
  constructor
  · intro hsub
    exact List.rel_of_pairwise_cons (hl.sublist hsub) (List.mem_singleton.mpr rfl)
  · intro hlt
    induction l with
    | nil => exact absurd hx (by simp)
    | cons a l ih =>
        have hya : y ≠ a := by
          intro h
          rcases List.mem_cons.mp hx with hxa | hxl
          · rw [h, hxa] at hlt
            exact Nat.lt_irrefl _ hlt
          · have := List.rel_of_pairwise_cons hl hxl
            rw [h] at hlt
            exact Nat.lt_asymm this hlt
        have hyl : y ∈ l := (List.mem_cons.mp hy).resolve_left hya
        rcases List.mem_cons.mp hx with hxa | hxl
        · rw [hxa]
          exact (List.singleton_sublist.mpr hyl).cons_cons a
        · exact (ih hl.of_cons hxl hyl).cons a

end ComputerScience.PubSub
