/-
  ComputerScience.Replicated.CallV2
  ─────────────────────────────────
  **THE REPLICATED CLIENT'S `CallV2`** (`03_replicated_service_client/client.go`).

  A call tries the servers in the order of the list; each `select` takes either a result
  from `done` or the timeout, which may come at any moment.  After the loop the call waits
  for a result.  The goroutines it has started go on after it has returned.

  The client's fields are only read, so the calls of a client do not affect each other and
  one call is the whole system.

  Main results:
    • `Fanout.Counted` — every started goroutine accounts for one call of `callOne`, and the
      results in `done` were sent by goroutines that have exited,
    • `callV2_safe` — the reply was produced for this call, the servers contacted are the
      first ones of the list, and no goroutine waits to send.
-/
import ComputerScience.Lib.CallLog
import ComputerScience.Lib.TransitionSystem
import ComputerScience.Replicated.Fanout
import Mathlib.Data.List.Range

namespace ComputerScience.Replicated

open ComputerScience.Lib

variable {Args Reply : Type}

/-! ## §1. One call. -/

/-- Where a call of `CallV2` is. -/
inductive CallV2Pc (Reply : Type) where
  /-- at the loop test `id < len(c.servers)` -/
  | loop (id : ℕ)
  /-- at the `select`, the goroutine for `id` started -/
  | waiting (id : ℕ)
  /-- at `r := <-done` after the loop -/
  | last
  /-- after `return r.reply` -/
  | returned (r : Result Reply)

structure CallV2 (Reply : Type) where
  pc : CallV2Pc Reply
  fan : Fanout Reply
  /-- The servers for which the call has started a goroutine, in this order. -/
  contacted : List ℕ

/-- One step of the call or of one of its goroutines. -/
inductive CallV2Step (svc : Service Args Reply) (args : Args) (c : CallV2 Reply) :
    CallV2 Reply → Prop where
  | tryServer (id : ℕ) (h : c.pc = .loop id) (hid : id < svc.servers.length) :
      CallV2Step svc args c
        ⟨.waiting id, c.fan.spawn id, c.contacted ++ [id]⟩
  | loopEnd (id : ℕ) (h : c.pc = .loop id) (hid : svc.servers.length ≤ id) :
      CallV2Step svc args c { c with pc := .last }
  | recv (id : ℕ) (r : Result Reply) (rest : List (Result Reply)) (h : c.pc = .waiting id)
      (hdone : c.fan.done = r :: rest) :
      CallV2Step svc args c { c with pc := .returned r, fan := { c.fan with done := rest } }
  -- `case <-t.C`, after which the timer is set again
  | timeout (id : ℕ) (h : c.pc = .waiting id) :
      CallV2Step svc args c { c with pc := .loop (id + 1) }
  | recvLast (r : Result Reply) (rest : List (Result Reply)) (h : c.pc = .last)
      (hdone : c.fan.done = r :: rest) :
      CallV2Step svc args c { c with pc := .returned r, fan := { c.fan with done := rest } }
  -- also after the call has returned
  | goroutine (fan : Fanout Reply) (h : FanoutStep svc args c.fan fan) :
      CallV2Step svc args c { c with fan := fan }

/-- A call `CallV2(args)`. -/
def callV2System (svc : Service Args Reply) (args : Args) : System (CallV2 Reply) where
  init c := c = ⟨.loop 0, Fanout.empty, []⟩
  step := CallV2Step svc args

/-! ## §2. Counting calls and sends. -/

/-- The server that a goroutine is calling. -/
def Goroutine.calls : Goroutine Reply → Option ℕ
  | .calling id => some id
  | _ => none

/-- 1 for a goroutine that has sent its result. -/
def Goroutine.sent : Goroutine Reply → ℕ
  | .exited => 1
  | _ => 0

theorem Goroutine.sent_le_one (g : Goroutine Reply) : g.sent ≤ 1 := by
  cases g <;> simp [Goroutine.sent]

/-- The servers whose `callOne` has returned or is running. -/
def Fanout.called (f : Fanout Reply) : List ℕ :=
  f.produced.map Result.serverId ++ f.goroutines.filterMap Goroutine.calls

/-- For the servers `contacted` there is one goroutine and one call of `callOne` each; and
what is in `done` was sent by goroutines that have exited. -/
structure Fanout.Counted (contacted : List ℕ) (f : Fanout Reply) : Prop where
  size : f.goroutines.length = contacted.length
  calls : Balanced Goroutine.calls f.goroutines contacted (f.produced.map Result.serverId)
  room : f.done.length ≤ weight Goroutine.sent f.goroutines

variable {svc : Service Args Reply} {args : Args} {f f' : Fanout Reply} {contacted : List ℕ}

theorem Fanout.Counted.empty : (Fanout.empty : Fanout Reply).Counted [] :=
  ⟨rfl, List.Perm.refl _, Nat.zero_le _⟩

theorem Fanout.Counted.spawn (h : f.Counted contacted) (id : ℕ) :
    (f.spawn id).Counted (contacted ++ [id]) := by
  refine ⟨?_, ?_, ?_⟩
  · simp [Fanout.spawn, h.size]
  · exact h.calls.spawn_running rfl
  · show f.done.length ≤ weight Goroutine.sent (f.goroutines ++ [.calling id])
    rw [weight_concat]
    exact Nat.le_add_right_of_le h.room

/-- Receiving makes room. -/
theorem Fanout.Counted.recv (h : f.Counted contacted) {r : Result Reply}
    {rest : List (Result Reply)} (hdone : f.done = r :: rest) :
    Fanout.Counted contacted { f with done := rest } := by
  refine ⟨h.size, h.calls, ?_⟩
  have hroom := h.room
  rw [hdone, List.length_cons] at hroom
  exact Nat.le_of_succ_le hroom

/-- **A step of a goroutine** keeps the counts. -/
theorem Fanout.Counted.step (h : f.Counted contacted) (hstep : FanoutStep svc args f f') :
    f'.Counted contacted := by
  cases hstep with
  | produce j id srv v hj hsrv hv =>
      refine ⟨?_, ?_, ?_⟩
      · simp [h.size]
      · -- `id` moves from the calls under way to the results
        have hleave := h.calls.leave hj rfl (y := .sending ⟨id, v⟩) rfl
        rw [← List.map_singleton (f := Result.serverId) (a := ⟨id, v⟩), ← List.map_append] at hleave
        exact hleave
      · have hw := weight_set Goroutine.sent (.sending ⟨id, v⟩) hj
        simp only [Goroutine.sent, Nat.add_zero] at hw
        show f.done.length ≤ weight Goroutine.sent (f.goroutines.set j (.sending ⟨id, v⟩))
        rw [hw]
        exact h.room
  | send j r hj hroom =>
      refine ⟨?_, ?_, ?_⟩
      · simp [h.size]
      · exact h.calls.keep hj rfl
      · have hw := weight_set Goroutine.sent .exited hj
        have hold := h.room
        simp only [Goroutine.sent, Nat.add_zero] at hw
        simp only [List.length_append, List.length_singleton]
        omega

/-- **Room for every sender**: one that has not exited is not among those that filled
`done`. -/
theorem Fanout.Counted.room_of_sending (h : f.Counted contacted)
    (hlen : contacted.length ≤ svc.servers.length) {j : ℕ} {r : Result Reply}
    (hj : f.goroutines[j]? = some (.sending r)) : f.done.length < svc.servers.length := by
  have hw := weight_set Goroutine.sent .exited hj
  have hle := weight_le_length Goroutine.sent_le_one (f.goroutines.set j .exited)
  rw [List.length_set, h.size] at hle
  have hroom := h.room
  simp only [Goroutine.sent, Nat.add_zero] at hw
  omega

/-! ## §3. Whole runs. -/

/-- The invariant of a call. -/
structure CallV2.Ok (svc : Service Args Reply) (args : Args) (c : CallV2 Reply) : Prop where
  fan : c.fan.Sound svc args
  counted : c.fan.Counted c.contacted
  segment : c.contacted = List.range c.contacted.length
  bound : c.contacted.length ≤ svc.servers.length
  loop : ∀ id, c.pc = .loop id → c.contacted.length = id
  waiting : ∀ id, c.pc = .waiting id → c.contacted.length = id + 1
  result : ∀ r, c.pc = .returned r → r ∈ c.fan.produced

theorem CallV2.Ok.init : (⟨.loop 0, Fanout.empty, []⟩ : CallV2 Reply).Ok svc args where
  fan := Fanout.Sound.empty
  counted := Fanout.Counted.empty
  segment := rfl
  bound := Nat.zero_le _
  loop id h := by
    injection h with h
  waiting id h := by simp at h
  result r h := by simp at h

/-- A result taken from `done` is returned. -/
theorem CallV2.Ok.recv {c : CallV2 Reply} (hok : c.Ok svc args) {r : Result Reply}
    {rest : List (Result Reply)} (hdone : c.fan.done = r :: rest) :
    CallV2.Ok svc args { c with pc := .returned r, fan := { c.fan with done := rest } } := by
  obtain ⟨hr, hsound⟩ := hok.fan.recv hdone
  refine ⟨hsound, hok.counted.recv hdone, hok.segment, hok.bound, by simp, by simp, ?_⟩
  intro r' h
  injection h with h
  rw [← h]
  exact hr

/-- **One step** of the call or of a goroutine. -/
theorem CallV2.Ok.step {c c' : CallV2 Reply} (hok : c.Ok svc args)
    (hstep : CallV2Step svc args c c') : c'.Ok svc args := by
  cases hstep with
  | tryServer id h hid =>
      have hlen := hok.loop id h
      have hsegment : c.contacted ++ [id] = List.range (c.contacted ++ [id]).length := by
        rw [List.length_append, List.length_singleton, List.range_succ, ← hok.segment, hlen]
      refine ⟨hok.fan.spawn id, hok.counted.spawn id, hsegment, ?_, by simp, ?_, by simp⟩
      · rw [List.length_append, List.length_singleton, hlen]
        exact hid
      · intro id' h'
        injection h' with h'
        rw [List.length_append, List.length_singleton, hlen, h']
  | loopEnd id h hid =>
      exact ⟨hok.fan, hok.counted, hok.segment, hok.bound, by simp, by simp, by simp⟩
  | recv id r rest h hdone => exact hok.recv hdone
  | timeout id h =>
      refine ⟨hok.fan, hok.counted, hok.segment, hok.bound, ?_, by simp, by simp⟩
      intro id' h'
      injection h' with h'
      rw [hok.waiting id h, h']
  | recvLast r rest h hdone => exact hok.recv hdone
  | goroutine fan h =>
      refine ⟨hok.fan.step h, hok.counted.step h, hok.segment, hok.bound, hok.loop, hok.waiting, ?_⟩
      intro r hr
      exact h.produced_mono (hok.result r hr)

theorem CallV2.Ok.reachable {c : CallV2 Reply} (h : (callV2System svc args).Reachable c) :
    c.Ok svc args := by
  refine h.invariant ?_ (fun _ _ _ hok hstep => hok.step hstep)
  rintro c rfl
  exact CallV2.Ok.init

/-- **`CallV2` is safe**: in every state of every run, also after the call has returned,
a reply it has returned is one that `callOne(servers[id], args)` produced for a server
`id` this call contacted; the servers contacted are the first ones of the list in order,
with one goroutine and one call of `callOne` each; and a goroutine that is about to send
on `done` can do so. -/
theorem callV2_safe (svc : Service Args Reply) (args : Args) (c : CallV2 Reply)
    (h : (callV2System svc args).Reachable c) :
    (∀ r, c.pc = .returned r → r ∈ c.fan.produced ∧ r.serverId ∈ c.contacted ∧
      ∃ srv, svc.servers[r.serverId]? = some srv ∧ svc.callOne srv args r.reply) ∧
    (∃ k ≤ svc.servers.length, c.contacted = List.range k ∧ c.fan.goroutines.length = k ∧
      c.fan.called.Perm (List.range k)) ∧
    ∀ j r, c.fan.goroutines[j]? = some (.sending r) →
      FanoutStep svc args c.fan
        { c.fan with goroutines := c.fan.goroutines.set j .exited, done := c.fan.done ++ [r] } := by
  have hok := CallV2.Ok.reachable h
  refine ⟨?_, ?_, ?_⟩
  · intro r hr
    have hmem := hok.result r hr
    refine ⟨hmem, List.Perm.subset hok.counted.calls ?_, hok.fan.produced r hmem⟩
    exact List.mem_append_left _ (List.mem_map_of_mem hmem)
  · refine ⟨c.contacted.length, hok.bound, hok.segment, hok.counted.size, ?_⟩
    rw [← hok.segment]
    exact hok.counted.calls
  · intro j r hj
    exact .send j r hj (hok.counted.room_of_sending hok.bound hj)

/-- The first of two servers is slow, and still calling when the second has answered. -/
theorem callV2_safe_slow : ∃ c : CallV2 ℕ,
    (callV2System (⟨["s0", "s1"], fun _ args v => v = args + 1, 0⟩ : Service ℕ ℕ) 5).Reachable c ∧
      c.pc = .returned ⟨1, 6⟩ ∧ 1 ∈ c.contacted := by
  let svc : Service ℕ ℕ := ⟨["s0", "s1"], fun _ args v => v = args + 1, 0⟩
  have h0 : (callV2System svc 5).Reachable ⟨.loop 0, Fanout.empty, []⟩ :=
    System.Reachable.of_init rfl
  have h1 := ((h0.tail (.tryServer 0 rfl Nat.two_pos)).tail (.timeout 0 rfl)).tail
    (.tryServer 1 rfl Nat.one_lt_two)
  have h2 := (h1.tail (.goroutine _ (.produce 1 1 "s1" 6 rfl rfl rfl))).tail
    (.goroutine _ (.send 1 ⟨1, 6⟩ rfl Nat.two_pos))
  have h3 := h2.tail (.recv 1 ⟨1, 6⟩ [] rfl rfl)
  exact ⟨_, h3, rfl, ((callV2_safe svc 5 _ h3).1 ⟨1, 6⟩ rfl).2.1⟩

end ComputerScience.Replicated
