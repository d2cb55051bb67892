/-
  ComputerScience.Multiplexer.Mux
  ───────────────────────────────
  **THE PROTOCOL MULTIPLEXER** (`04_protocol_multiplexer/mux.go`).

  Any number of `Call`s share one connection to a remote service: a `Call` registers its
  `done` channel in `pending` under the tag of its message, hands the message to `sendLoop`
  over `m.send`, and waits; `recvLoop` takes each reply to the `done` channel that stands in
  `pending` under the reply's tag.

  The remote service answers each request it was sent at most once, in any order, with a
  reply that carries the request's tag.  Messages are numbered by the `Call` they belong to;
  the numbers are history, no step of the program reads them.
-/
import ComputerScience.Lib.Pool
import ComputerScience.Lib.TransitionSystem
import Mathlib.Data.List.Count
import Mathlib.Logic.Function.Basic

namespace ComputerScience.Multiplexer

open ComputerScience.Lib

/-! ## §1. The goroutines. -/

/-- Where a `Call` is. -/
inductive CallPc (Msg : Type) where
  /-- before `m.mu.Lock()` -/
  | start
  /-- before `if m.pending[tag] != nil` -/
  | checking
  /-- before the `m.mu.Unlock()` that precedes `panic("mux: duplicate call tag")` -/
  | rejecting
  | panicked
  /-- after `m.pending[tag] = done`, before `m.mu.Unlock()` -/
  | registered
  /-- before `m.send <- args` -/
  | sending
  /-- before `<-done` -/
  | waiting
  /-- the reply, with the number of the request it answers -/
  | returned (k : ℕ) (reply : Msg)

/-- A `Call`, with what its channel `done` (of capacity 1) holds. -/
structure MuxCall (Msg : Type) where
  args : Msg
  pc : CallPc Msg
  done : List (ℕ × Msg)

/-- Where `sendLoop` is. -/
inductive SendPc where
  /-- at the receive of `range m.send` -/
  | ranging
  /-- before `m.srv.Send(args)`, with the message of the `Call` -/
  | calling (i : ℕ)
  /-- inside of `m.srv.Send(args)` -/
  | inSend (i : ℕ)

/-- Where `recvLoop` is; `k` is the number of the request that the reply answers. -/
inductive RecvPc (Msg : Type) where
  /-- in `m.srv.Recv()` -/
  | receiving
  /-- before `m.mu.Lock()` -/
  | read (k : ℕ) (reply : Msg)
  /-- before `done := m.pending[tag]` and `delete(m.pending, tag)` -/
  | taking (k : ℕ) (reply : Msg)
  /-- before `m.mu.Unlock()` -/
  | unlocking (k : ℕ) (reply : Msg) (done : Option ℕ)
  /-- before `if done == nil` -/
  | checking (k : ℕ) (reply : Msg) (done : Option ℕ)
  /-- before `done <- reply` -/
  | delivering (k : ℕ) (reply : Msg) (done : ℕ)
  /-- after `panic("unexpected reply")` -/
  | panicked

/-- Who holds `m.mu`. -/
inductive MuxOwner where
  | call (i : ℕ)
  | recvLoop
  deriving DecidableEq

structure Mux (Msg : Type) where
  calls : List (MuxCall Msg)
  mu : Option MuxOwner
  /-- The map `pending`; a `Call` stands for its channel `done`. -/
  pending : Int64 → Option ℕ
  /-- `pending` at the last `m.mu.Lock()`. -/
  atLock : Int64 → Option ℕ
  sendLoop : SendPc
  recvLoop : RecvPc Msg
  /-- What the channel `m.send` holds. -/
  queue : List ℕ
  /-- The requests that `srv.Send` was given. -/
  sent : List ℕ
  /-- The requests the remote service has not answered. -/
  unanswered : List ℕ
  /-- The replies on their way to `srv.Recv`. -/
  inbound : List (ℕ × Msg)
  /-- The replies `srv.Recv` has returned. -/
  received : List (ℕ × Msg)

variable {Msg : Type}

/-- A goroutine's `Call(args)`, at its first statement. -/
def MuxCall.start (args : Msg) : MuxCall Msg := ⟨args, .start, []⟩

/-- One step.  `readTag` is `srv.ReadTag`; `send` is the channel `m.send`: nil, or a channel
of some capacity. -/
inductive MuxStep (readTag : Msg → Int64) (send : Option ℕ) (s : Mux Msg) : Mux Msg → Prop where
  | call (args : Msg) :
      MuxStep readTag send s { s with calls := s.calls ++ [.start args] }
  | callLock (i : ℕ) (c : MuxCall Msg) (h : s.calls[i]? = some c) (hpc : c.pc = .start)
      (hmu : s.mu = none) :
      MuxStep readTag send s { s with
        calls := s.calls.set i { c with pc := .checking }
        mu := some (.call i)
        atLock := s.pending }
  | duplicate (i : ℕ) (c : MuxCall Msg) (h : s.calls[i]? = some c) (hpc : c.pc = .checking)
      (hpend : s.pending (readTag c.args) ≠ none) :
      MuxStep readTag send s { s with calls := s.calls.set i { c with pc := .rejecting } }
  | panic (i : ℕ) (c : MuxCall Msg) (h : s.calls[i]? = some c) (hpc : c.pc = .rejecting) :
      MuxStep readTag send s { s with
        calls := s.calls.set i { c with pc := .panicked }
        mu := none }
  | register (i : ℕ) (c : MuxCall Msg) (h : s.calls[i]? = some c) (hpc : c.pc = .checking)
      (hpend : s.pending (readTag c.args) = none) :
      MuxStep readTag send s { s with
        calls := s.calls.set i { c with pc := .registered }
        pending := Function.update s.pending (readTag c.args) (some i) }
  | callUnlock (i : ℕ) (c : MuxCall Msg) (h : s.calls[i]? = some c) (hpc : c.pc = .registered) :
      MuxStep readTag send s { s with
        calls := s.calls.set i { c with pc := .sending }
        mu := none }
  -- `m.send <- args` meets the receive of `sendLoop` at the empty channel
  | handOver (i cap : ℕ) (c : MuxCall Msg) (h : s.calls[i]? = some c) (hpc : c.pc = .sending)
      (hsend : send = some cap) (hq : s.queue = []) (hl : s.sendLoop = .ranging) :
      MuxStep readTag send s { s with
        calls := s.calls.set i { c with pc := .waiting }
        sendLoop := .calling i }
  | enqueue (i cap : ℕ) (c : MuxCall Msg) (h : s.calls[i]? = some c) (hpc : c.pc = .sending)
      (hsend : send = some cap) (hroom : s.queue.length < cap) :
      MuxStep readTag send s { s with
        calls := s.calls.set i { c with pc := .waiting }
        queue := s.queue ++ [i] }
  | dequeue (i : ℕ) (rest : List ℕ) (hq : s.queue = i :: rest) (hl : s.sendLoop = .ranging) :
      MuxStep readTag send s { s with queue := rest, sendLoop := .calling i }
  -- from the call of `srv.Send` on the remote service may answer
  | srvSend (i : ℕ) (hl : s.sendLoop = .calling i) :
      MuxStep readTag send s { s with
        sendLoop := .inSend i
        sent := s.sent ++ [i]
        unanswered := s.unanswered ++ [i] }
  | srvSendReturn (i : ℕ) (hl : s.sendLoop = .inSend i) :
      MuxStep readTag send s { s with sendLoop := .ranging }
  | answer (k : ℕ) (c : MuxCall Msg) (reply : Msg) (hk : k ∈ s.unanswered)
      (h : s.calls[k]? = some c) (htag : readTag reply = readTag c.args) :
      MuxStep readTag send s { s with
        unanswered := s.unanswered.erase k
        inbound := s.inbound ++ [(k, reply)] }
  | srvRecv (before after : List (ℕ × Msg)) (k : ℕ) (reply : Msg)
      (hin : s.inbound = before ++ (k, reply) :: after) (hl : s.recvLoop = .receiving) :
      MuxStep readTag send s { s with
        recvLoop := .read k reply
        inbound := before ++ after
        received := s.received ++ [(k, reply)] }
  | recvLock (k : ℕ) (reply : Msg) (hl : s.recvLoop = .read k reply) (hmu : s.mu = none) :
      MuxStep readTag send s { s with
        recvLoop := .taking k reply
        mu := some .recvLoop
        atLock := s.pending }
  | take (k : ℕ) (reply : Msg) (hl : s.recvLoop = .taking k reply) :
      MuxStep readTag send s { s with
        recvLoop := .unlocking k reply (s.pending (readTag reply))
        pending := Function.update s.pending (readTag reply) none }
  | recvUnlock (k : ℕ) (reply : Msg) (done : Option ℕ) (hl : s.recvLoop = .unlocking k reply done) :
      MuxStep readTag send s { s with recvLoop := .checking k reply done, mu := none }
  | unexpected (k : ℕ) (reply : Msg) (hl : s.recvLoop = .checking k reply none) :
      MuxStep readTag send s { s with recvLoop := .panicked }
  | expected (k i : ℕ) (reply : Msg) (hl : s.recvLoop = .checking k reply (some i)) :
      MuxStep readTag send s { s with recvLoop := .delivering k reply i }
  -- `done` has capacity 1
  | deliver (k i : ℕ) (reply : Msg) (c : MuxCall Msg) (hl : s.recvLoop = .delivering k reply i)
      (h : s.calls[i]? = some c) (hroom : c.done.length < 1) :
      MuxStep readTag send s { s with
        recvLoop := .receiving
        calls := s.calls.set i { c with done := c.done ++ [(k, reply)] } }
  | callReturn (i k : ℕ) (reply : Msg) (rest : List (ℕ × Msg)) (c : MuxCall Msg)
      (h : s.calls[i]? = some c) (hpc : c.pc = .waiting) (hdone : c.done = (k, reply) :: rest) :
      MuxStep readTag send s { s with
        calls := s.calls.set i { c with pc := .returned k reply, done := rest } }

/-- `Init` for a `Mux` whose field `send` holds the channel `send`: `Init` sets `srv` and
`pending` and starts the two loops, and does not touch `send`. -/
def muxSystem (readTag : Msg → Int64) (send : Option ℕ) : System (Mux Msg) where
  init s := s = ⟨[], none, fun _ => none, fun _ => none, .ranging, .receiving, [], [], [], [], []⟩
  step := MuxStep readTag send

/-- A `Mux` prepared by `Init` alone: the field `send` has its zero value, nil. -/
def initMux (readTag : Msg → Int64) : System (Mux Msg) := muxSystem readTag none

/-! ## §2. Where the request of a `Call` is. -/

/-- The message of `i` is in the hands of `sendLoop`. -/
def SendPc.token (i : ℕ) : SendPc → ℕ
  | .calling j => if j = i then 1 else 0
  | .ranging | .inSend _ => 0

/-- The reply for `i` is in the hands of `recvLoop` and `pending` is not read yet. -/
def RecvPc.token (i : ℕ) : RecvPc Msg → ℕ
  | .read k _ | .taking k _ => if k = i then 1 else 0
  | _ => 0

/-- The reply for `i` is in the hands of `recvLoop` and `pending` was read. -/
def RecvPc.Carries (i : ℕ) : RecvPc Msg → Prop
  | .unlocking k _ _ | .checking k _ _ | .delivering k _ _ => k = i
  | _ => False

/-- The reply that `recvLoop` has in its hands. -/
def RecvPc.held : RecvPc Msg → Option (ℕ × Msg)
  | .read k m | .taking k m | .unlocking k m _ | .checking k m _ | .delivering k m _ => some (k, m)
  | .receiving | .panicked => none

/-- `recvLoop` has not panicked, and what it found in `pending` is the channel of the `Call`
that the reply answers. -/
def RecvPc.Ok : RecvPc Msg → Prop
  | .unlocking k _ d | .checking k _ d => d = some k
  | .delivering k _ i => i = k
  | .panicked => False
  | .receiving | .read _ _ | .taking _ _ => True

/-- How often the request of `i`, or its reply, is between `m.send <- args` and the lookup
in `pending`. -/
def Mux.flow (s : Mux Msg) (i : ℕ) : ℕ :=
  s.queue.count i + s.sendLoop.token i + s.unanswered.count i +
    (s.inbound.map Prod.fst).count i + s.recvLoop.token i

/-- **The life of a `Call`**: outside, registered with its message in its own hands, with the
request or the reply under way, with the reply carried by `recvLoop`, with the reply in
`done`, and returned.  `reg` says that `pending` holds its channel. -/
def MuxCall.Ok (readTag : Msg → Int64) (i : ℕ) (c : MuxCall Msg) (flow : ℕ)
    (reg carried : Prop) : Prop :=
  match c.pc with
  | .start | .checking | .rejecting | .panicked => flow = 0 ∧ ¬reg ∧ ¬carried ∧ c.done = []
  | .registered | .sending => flow = 0 ∧ reg ∧ ¬carried ∧ c.done = []
  | .waiting =>
      (flow = 1 ∧ reg ∧ ¬carried ∧ c.done = []) ∨
      (flow = 0 ∧ ¬reg ∧ carried ∧ c.done = []) ∨
      (flow = 0 ∧ ¬reg ∧ ¬carried ∧ ∃ m, c.done = [(i, m)] ∧ readTag m = readTag c.args)
  | .returned k m =>
      flow = 0 ∧ ¬reg ∧ ¬carried ∧ c.done = [] ∧ k = i ∧ readTag m = readTag c.args

/-- Whether a `Call` that has not handed its message over is registered. -/
def CallPc.registers : CallPc Msg → Option Bool
  | .start | .checking | .rejecting | .panicked => some false
  | .registered | .sending => some true
  | .waiting | .returned _ _ => none

/-- The reply that a `Call` has got. -/
def MuxCall.reply (c : MuxCall Msg) : Option (ℕ × Msg) :=
  match c.pc with
  | .returned k m => some (k, m)
  | _ => c.done.head?

/-- The invariant of the requests and replies. -/
structure MuxInv (readTag : Msg → Int64) (s : Mux Msg) : Prop where
  ok : ∀ (i : ℕ) (c : MuxCall Msg), s.calls[i]? = some c →
    c.Ok readTag i (s.flow i) (s.pending (readTag c.args) = some i) (s.recvLoop.Carries i)
  outside : ∀ i : ℕ, s.calls[i]? = none →
    s.flow i = 0 ∧ (∀ t, s.pending t ≠ some i) ∧ ¬ s.recvLoop.Carries i
  tags : ∀ (k : ℕ) (m : Msg), (k, m) ∈ s.inbound ∨ s.recvLoop.held = some (k, m) →
    ∀ c, s.calls[k]? = some c → readTag m = readTag c.args
  recv : s.recvLoop.Ok
  received : ∀ (k : ℕ) (m : Msg), (k, m) ∈ s.received ↔
    s.recvLoop.held = some (k, m) ∨ ∃ c, s.calls[k]? = some c ∧ c.reply = some (k, m)

section Step

variable {readTag : Msg → Int64} {s s' : Mux Msg}

/-- Before its message is handed over a `Call` has its request in its own hands, and is
registered or not as its place in the code says. -/
theorem MuxCall.ok_iff {i f : ℕ} {c : MuxCall Msg} {r d : Prop} {b : Bool}
    (hreg : c.pc.registers = some b) :
    c.Ok readTag i f r d ↔ f = 0 ∧ (r ↔ b = true) ∧ ¬ d ∧ c.done = [] := by
  unfold MuxCall.Ok
  cases hpc : c.pc with
  | waiting => rw [hpc] at hreg; cases hreg
  | returned k m => rw [hpc] at hreg; cases hreg
  | _ =>
      rw [hpc] at hreg
      cases hreg
      simp

theorem MuxCall.reply_eq {c : MuxCall Msg} {b : Bool} (hreg : c.pc.registers = some b) :
    c.reply = c.done.head? := by
  unfold MuxCall.reply
  cases hpc : c.pc with
  | returned k m => rw [hpc] at hreg; cases hreg
  | _ => rfl

/-- A request under way belongs to a `Call` that waits and is registered. -/
theorem MuxInv.of_flow (hinv : MuxInv readTag s) {k : ℕ} (hk : 0 < s.flow k) :
    ∃ c, s.calls[k]? = some c ∧ c.pc = .waiting ∧ s.flow k = 1 ∧
      s.pending (readTag c.args) = some k ∧ ¬ s.recvLoop.Carries k ∧ c.done = [] := by
  cases hc : s.calls[k]? with
  | none =>
      have := (hinv.outside k hc).1
      omega
  | some c =>
      have hok := hinv.ok k c hc
      unfold MuxCall.Ok at hok
      cases hpc : c.pc with
      | waiting =>
          rw [hpc] at hok
          rcases hok with ⟨h1, h2, h3, h4⟩ | ⟨h1, -⟩ | ⟨h1, -⟩
          · exact ⟨c, rfl, hpc, h1, h2, h3, h4⟩
          · omega
          · omega
      | _ =>
          rw [hpc] at hok
          omega

theorem RecvPc.of_held {r : RecvPc Msg} {k : ℕ} {m : Msg} (h : r.held = some (k, m)) :
    r.token k = 1 ∨ r.Carries k := by
  cases r with
  | receiving => cases h
  | panicked => cases h
  | read k' m' => cases h; exact Or.inl (if_pos rfl)
  | taking k' m' => cases h; exact Or.inl (if_pos rfl)
  | unlocking k' m' d => cases h; exact Or.inr rfl
  | checking k' m' d => cases h; exact Or.inr rfl
  | delivering k' m' d => cases h; exact Or.inr rfl

theorem Mux.flow_pos_of_inbound {k : ℕ} {m : Msg} (h : (k, m) ∈ s.inbound) : 0 < s.flow k := by
  have : 0 < (s.inbound.map Prod.fst).count k :=
    List.count_pos_iff.mpr (List.mem_map.mpr ⟨_, h, rfl⟩)
  unfold Mux.flow
  omega

/-- A reply under way belongs to a `Call`. -/
theorem MuxInv.reply_call (hinv : MuxInv readTag s) {k : ℕ} {m : Msg}
    (h : (k, m) ∈ s.inbound ∨ s.recvLoop.held = some (k, m)) : s.calls[k]? ≠ none := by
  intro hnone
  obtain ⟨hflow, -, hcarry⟩ := hinv.outside k hnone
  rcases h with hin | hheld
  · have := Mux.flow_pos_of_inbound hin
    omega
  · rcases RecvPc.of_held hheld with htok | hc
    · unfold Mux.flow at hflow
      omega
    · exact hcarry hc

/-- **A step that concerns one `Call`**: of all others nothing changes. -/
theorem MuxInv.okStep (hinv : MuxInv readTag s) (s' : Mux Msg) {i : ℕ} (c' : MuxCall Msg)
    (hself : s'.calls[i]? = some c') (hcalls : ∀ j, j ≠ i → s'.calls[j]? = s.calls[j]?)
    (hflow : ∀ j, j ≠ i → s'.flow j = s.flow j)
    (hpend : ∀ j, j ≠ i → ∀ t, (s'.pending t = some j) = (s.pending t = some j))
    (hcarry : ∀ j, j ≠ i → s'.recvLoop.Carries j = s.recvLoop.Carries j)
    (hi : c'.Ok readTag i (s'.flow i) (s'.pending (readTag c'.args) = some i)
      (s'.recvLoop.Carries i)) :
    (∀ (j : ℕ) (d : MuxCall Msg), s'.calls[j]? = some d →
      d.Ok readTag j (s'.flow j) (s'.pending (readTag d.args) = some j) (s'.recvLoop.Carries j)) ∧
    (∀ j : ℕ, s'.calls[j]? = none →
      s'.flow j = 0 ∧ (∀ t, s'.pending t ≠ some j) ∧ ¬ s'.recvLoop.Carries j) := by
  constructor
  · intro j d hj
    by_cases hne : j = i
    · subst hne
      rw [hself] at hj
      exact Option.some.inj hj ▸ hi
    · rw [hcalls j hne] at hj
      rw [hflow j hne, hpend j hne, hcarry j hne]
      exact hinv.ok j d hj
  · intro j hj
    have hne : j ≠ i := by
      intro hji
      rw [hji, hself] at hj
      cases hj
    rw [hcalls j hne] at hj
    obtain ⟨h1, h2, h3⟩ := hinv.outside j hj
    refine ⟨(hflow j hne).trans h1, ?_, ?_⟩
    · intro t ht
      rw [hpend j hne t] at ht
      exact h2 t ht
    · rw [hcarry j hne]
      exact h3

/-- The `Call` that moves keeps its arguments and the reply it has got. -/
theorem MuxInv.callStep (hinv : MuxInv readTag s) {i : ℕ} {c c' : MuxCall Msg}
    (hc : s.calls[i]? = some c) (hcalls : s'.calls = s.calls.set i c')
    (hflow : ∀ j, j ≠ i → s'.flow j = s.flow j)
    (hpend : ∀ j, j ≠ i → ∀ t, (s'.pending t = some j) = (s.pending t = some j))
    (hi : c'.Ok readTag i (s'.flow i) (s'.pending (readTag c'.args) = some i)
      (s'.recvLoop.Carries i))
    (hargs : c'.args = c.args) (hreply : c'.reply = c.reply)
    (hrecv : s'.recvLoop = s.recvLoop) (hin : s'.inbound = s.inbound)
    (hreceived : s'.received = s.received) : MuxInv readTag s' := by
  have hlt : i < s.calls.length := (List.getElem?_eq_some_iff.mp hc).1
  obtain ⟨hok, hout⟩ := hinv.okStep s' c' (by rw [hcalls, List.getElem?_set_self hlt])
    (fun j hj => by rw [hcalls, List.getElem?_set_ne (Ne.symm hj)]) hflow hpend
    (fun j _ => by rw [hrecv]) hi
  refine ⟨hok, hout, ?_, ?_, ?_⟩
  · intro k m hkm d hd
    rw [hin, hrecv] at hkm
    rw [hcalls] at hd
    rcases getElem?_set_cases hd with ⟨rfl, rfl⟩ | ⟨-, hd⟩
    · rw [hargs]
      exact hinv.tags k m hkm c hc
    · exact hinv.tags k m hkm d hd
  · rw [hrecv]
    exact hinv.recv
  · intro k m
    rw [hreceived, hrecv, hinv.received k m, hcalls]
    by_cases hki : k = i
    · subst hki
      rw [List.getElem?_set_self hlt, hc]
      simp only [Option.some.injEq, exists_eq_left', hreply]
    · rw [List.getElem?_set_ne (Ne.symm hki)]

/-- A step of the loops and of the remote service that moves requests and replies on their
way. -/
theorem MuxInv.flowStep (hinv : MuxInv readTag s) (hcalls : s'.calls = s.calls)
    (hpend : s'.pending = s.pending) (hflow : ∀ j, s'.flow j = s.flow j)
    (hcarry : ∀ j, s'.recvLoop.Carries j = s.recvLoop.Carries j)
    (htags : ∀ (k : ℕ) (m : Msg), (k, m) ∈ s'.inbound ∨ s'.recvLoop.held = some (k, m) →
      ∀ c, s.calls[k]? = some c → readTag m = readTag c.args)
    (hrecv : s'.recvLoop.Ok)
    (hreceived : ∀ (k : ℕ) (m : Msg), (k, m) ∈ s'.received ↔
      s'.recvLoop.held = some (k, m) ∨ ∃ c, s.calls[k]? = some c ∧ c.reply = some (k, m)) :
    MuxInv readTag s' := by
  refine ⟨?_, ?_, ?_, hrecv, ?_⟩
  · intro i c hc
    rw [hcalls] at hc
    rw [hflow i, hpend, hcarry i]
    exact hinv.ok i c hc
  · intro i hi
    rw [hcalls] at hi
    rw [hflow i, hpend, hcarry i]
    exact hinv.outside i hi
  · intro k m hkm c hc
    rw [hcalls] at hc
    exact htags k m hkm c hc
  · intro k m
    rw [hcalls]
    exact hreceived k m

/-- A goroutine calls `Call`. -/
theorem MuxInv.newCall (hinv : MuxInv readTag s) (args : Msg) :
    MuxInv readTag { s with calls := s.calls ++ [.start args] } := by
  have hnone : s.calls[s.calls.length]? = none := List.getElem?_eq_none (Nat.le_refl _)
  obtain ⟨h1, h2, h3⟩ := hinv.outside _ hnone
  have hne : ∀ j, j ≠ s.calls.length → (s.calls ++ [MuxCall.start args])[j]? = s.calls[j]? := by
    intro j hj
    by_cases hlt : j < s.calls.length
    · exact List.getElem?_append_left hlt
    · rw [List.getElem?_eq_none (by simp; omega), List.getElem?_eq_none (by omega)]
  obtain ⟨hok, hout⟩ := hinv.okStep
    { s with calls := s.calls ++ [.start args] } (.start args)
    List.getElem?_concat_length hne (fun _ _ => rfl) (fun _ _ _ => rfl) (fun _ _ => rfl)
    ⟨h1, h2 _, h3, rfl⟩
  refine ⟨hok, hout, ?_, hinv.recv, ?_⟩
  · intro k m hkm c hc
    rcases getElem?_concat_cases hc with hc | ⟨rfl, rfl⟩
    · exact hinv.tags k m hkm c hc
    · -- no reply belongs to a `Call` that did not start yet
      exact absurd hnone (hinv.reply_call hkm)
  · intro k m
    rw [hinv.received k m]
    show _ ↔ s.recvLoop.held = some (k, m) ∨
      ∃ c, (s.calls ++ [MuxCall.start args])[k]? = some c ∧ c.reply = some (k, m)
    by_cases hk : k = s.calls.length
    · subst hk
      rw [List.getElem?_concat_length, hnone]
      simp [MuxCall.reply, MuxCall.start]
    · rw [hne k hk]

/-- `recvLoop` reads and deletes the entry of the reply's tag: it is the channel of the
`Call` that the reply answers. -/
theorem MuxInv.take (hinv : MuxInv readTag s) {k : ℕ} {m : Msg}
    (hl : s.recvLoop = .taking k m) :
    MuxInv readTag ({ s with
      recvLoop := .unlocking k m (s.pending (readTag m))
      pending := Function.update s.pending (readTag m) none } : Mux Msg) := by
  have hflow : ∀ j, s.flow j = s.queue.count j + s.sendLoop.token j + s.unanswered.count j +
      (s.inbound.map Prod.fst).count j + if k = j then 1 else 0 := by
    intro j
    unfold Mux.flow
    rw [hl]
    rfl
  have hpos : 0 < s.flow k := by
    rw [hflow k, if_pos rfl]
    omega
  obtain ⟨c, hc, hpc, hone, hreg, -, hdone⟩ := hinv.of_flow hpos
  have htag : readTag m = readTag c.args :=
    hinv.tags k m (Or.inr (by rw [hl]; rfl)) c hc
  have hfound : s.pending (readTag m) = some k := by
    rw [htag]
    exact hreg
  obtain ⟨hok, hout⟩ := hinv.okStep
    { s with
      recvLoop := .unlocking k m (s.pending (readTag m))
      pending := Function.update s.pending (readTag m) none }
    c hc (fun _ _ => rfl)
    (fun j hj => by
      rw [hflow j, if_neg (Ne.symm hj)]
      rfl)
    (fun j hj t => by
      by_cases ht : t = readTag m
      · subst ht
        simp [Function.update_self, hfound, Ne.symm hj]
      · simp [Function.update_of_ne ht])
    (fun j hj => by
      rw [hl]
      show (k = j) = False
      simp [Ne.symm hj])
    (by
      unfold MuxCall.Ok
      rw [hpc]
      refine Or.inr (Or.inl ⟨?_, ?_, rfl, hdone⟩)
      · rw [hflow k, if_pos rfl] at hone
        show s.queue.count k + s.sendLoop.token k + s.unanswered.count k +
          (s.inbound.map Prod.fst).count k + 0 = 0
        omega
      · rw [← htag]
        simp [Function.update_self])
  have hheld : (RecvPc.unlocking k m (s.pending (readTag m))).held = s.recvLoop.held := by
    rw [hl]
    rfl
  refine ⟨hok, hout, ?_, hfound, ?_⟩
  · intro k' m' h
    dsimp only at h
    rw [hheld] at h
    exact hinv.tags k' m' h
  · intro k' m'
    dsimp only
    rw [hheld]
    exact hinv.received k' m'

/-- `done <- reply` -/
theorem MuxInv.deliver (hinv : MuxInv readTag s) {k i : ℕ} {m : Msg} {c : MuxCall Msg}
    (hl : s.recvLoop = .delivering k m i) (hc : s.calls[i]? = some c) :
    c.pc = .waiting ∧ c.done = [] ∧ i = k ∧
    MuxInv readTag ({ s with
      recvLoop := .receiving
      calls := s.calls.set i { c with done := c.done ++ [(k, m)] } } : Mux Msg) := by
  have hik : i = k := by
    have := hinv.recv
    rw [hl] at this
    exact this
  subst hik
  have hlt : i < s.calls.length := (List.getElem?_eq_some_iff.mp hc).1
  have hok := hinv.ok i c hc
  have hcarry : s.recvLoop.Carries i := by
    rw [hl]
    rfl
  have hflow : ∀ j, s.flow j = s.queue.count j + s.sendLoop.token j + s.unanswered.count j +
      (s.inbound.map Prod.fst).count j + 0 := by
    intro j
    unfold Mux.flow
    rw [hl]
    rfl
  -- a reply that is carried belongs to a `Call` that waits at an empty channel
  obtain ⟨hpc, hzero, hreg, hdone⟩ : c.pc = .waiting ∧ s.flow i = 0 ∧
      s.pending (readTag c.args) ≠ some i ∧ c.done = [] := by
    unfold MuxCall.Ok at hok
    cases hpc : c.pc with
    | waiting =>
        rw [hpc] at hok
        rcases hok with ⟨-, -, h, -⟩ | ⟨h1, h2, -, h4⟩ | ⟨-, -, h, -⟩
        · exact absurd hcarry h
        · exact ⟨rfl, h1, h2, h4⟩
        · exact absurd hcarry h
    | returned k m =>
        rw [hpc] at hok
        exact absurd hcarry hok.2.2.1
    | _ =>
        rw [hpc] at hok
        exact absurd hcarry hok.2.2.1
  have htag : readTag m = readTag c.args := hinv.tags i m (Or.inr (by rw [hl]; rfl)) c hc
  obtain ⟨hok', hout⟩ := hinv.okStep
    { s with
      recvLoop := .receiving
      calls := s.calls.set i { c with done := c.done ++ [(i, m)] } }
    { c with done := c.done ++ [(i, m)] }
    (List.getElem?_set_self hlt) (fun j hj => List.getElem?_set_ne (Ne.symm hj))
    (fun j _ => (hflow j).symm) (fun _ _ _ => rfl)
    (fun j hj => by
      rw [hl]
      show False = (i = j)
      simp [Ne.symm hj])
    (by
      unfold MuxCall.Ok
      dsimp only
      rw [hpc]
      refine Or.inr (Or.inr ⟨?_, hreg, id, m, by rw [hdone]; rfl, htag⟩)
      rw [hflow i] at hzero
      exact hzero)
  refine ⟨hpc, hdone, rfl, hok', hout, ?_, trivial, ?_⟩
  · intro k' m' h d hd
    have hin : (k', m') ∈ s.inbound := by
      rcases h with h | h
      · exact h
      · cases h
    rcases getElem?_set_cases hd with ⟨rfl, rfl⟩ | ⟨-, hd⟩
    · exact hinv.tags _ m' (Or.inl hin) c hc
    · exact hinv.tags k' m' (Or.inl hin) d hd
  · intro k' m'
    rw [hinv.received k' m', hl]
    show _ ↔ none = some (k', m') ∨
      ∃ d, (s.calls.set i { c with done := c.done ++ [(i, m)] })[k']? = some d ∧ _
    by_cases hk : k' = i
    · subst hk
      rw [List.getElem?_set_self hlt, hc]
      simp [RecvPc.held, MuxCall.reply, hpc, hdone]
    · rw [List.getElem?_set_ne (Ne.symm hk)]
      simp [RecvPc.held, Ne.symm hk]

/-- A `Call` hands its message over: to `sendLoop`, or into the buffer of `m.send`. -/
theorem MuxInv.sendStep (hinv : MuxInv readTag s) {i : ℕ} {c : MuxCall Msg}
    (hc : s.calls[i]? = some c) (hpc : c.pc = .sending)
    (hcalls : s'.calls = s.calls.set i { c with pc := .waiting })
    (hflow : ∀ j, s'.flow j = s.flow j + if i = j then 1 else 0)
    (hpend : s'.pending = s.pending) (hrecv : s'.recvLoop = s.recvLoop)
    (hin : s'.inbound = s.inbound) (hreceived : s'.received = s.received) :
    MuxInv readTag s' := by
  have hok := hinv.ok i c hc
  unfold MuxCall.Ok at hok
  rw [hpc] at hok
  obtain ⟨hzero, hreg, hcarry, hdone⟩ := hok
  refine hinv.callStep hc hcalls ?_ ?_ ?_ rfl ?_ hrecv hin hreceived
  · intro j hj
    rw [hflow j, if_neg (Ne.symm hj)]
    rfl
  · intro j _ t
    rw [hpend]
  · refine Or.inl ⟨?_, ?_, ?_, hdone⟩
    · rw [hflow i, hzero, if_pos rfl]
    · rw [hpend]
      exact hreg
    · rw [hrecv]
      exact hcarry
  · show c.done.head? = c.reply
    unfold MuxCall.reply
    rw [hpc]

/-- A step of a `Call` before it has handed its message over, other than the registration. -/
theorem MuxInv.pcStep (hinv : MuxInv readTag s) {i : ℕ} {c : MuxCall Msg} {pc' : CallPc Msg}
    {b : Bool} (hc : s.calls[i]? = some c) (hcalls : s'.calls = s.calls.set i { c with pc := pc' })
    (hreg : c.pc.registers = some b) (hreg' : pc'.registers = some b)
    (hflow : ∀ j, s'.flow j = s.flow j) (hpend : s'.pending = s.pending)
    (hrecv : s'.recvLoop = s.recvLoop) (hin : s'.inbound = s.inbound)
    (hreceived : s'.received = s.received) : MuxInv readTag s' := by
  refine hinv.callStep hc hcalls (fun j _ => hflow j) (fun j _ t => by rw [hpend]) ?_ rfl ?_
    hrecv hin hreceived
  · rw [hflow i, hpend, hrecv, MuxCall.ok_iff hreg']
    exact (MuxCall.ok_iff hreg).mp (hinv.ok i c hc)
  · rw [MuxCall.reply_eq hreg, MuxCall.reply_eq hreg']

/-- `m.pending[tag] = done` -/
theorem MuxInv.register (hinv : MuxInv readTag s) {i : ℕ} {c : MuxCall Msg}
    (hc : s.calls[i]? = some c) (hpc : c.pc = .checking)
    (hpend : s.pending (readTag c.args) = none) :
    MuxInv readTag ({ s with
      calls := s.calls.set i { c with pc := .registered }
      pending := Function.update s.pending (readTag c.args) (some i) } : Mux Msg) := by
  have hok := hinv.ok i c hc
  unfold MuxCall.Ok at hok
  rw [hpc] at hok
  obtain ⟨hzero, -, hcarry, hdone⟩ := hok
  refine hinv.callStep hc rfl (fun _ _ => rfl) ?_ ?_ rfl ?_ rfl rfl rfl
  · intro j hj t
    by_cases ht : t = readTag c.args
    · subst ht
      simp [Function.update_self, hpend, Ne.symm hj]
    · simp [Function.update_of_ne ht]
  · exact ⟨hzero, Function.update_self _ _ _, hcarry, hdone⟩
  · show c.done.head? = c.reply
    unfold MuxCall.reply
    rw [hpc]

/-- `return <-done` -/
theorem MuxInv.callReturn (hinv : MuxInv readTag s) {i k : ℕ} {m : Msg} {rest : List (ℕ × Msg)}
    {c : MuxCall Msg} (hc : s.calls[i]? = some c) (hpc : c.pc = .waiting)
    (hdone : c.done = (k, m) :: rest) :
    MuxInv readTag ({ s with
      calls := s.calls.set i { c with pc := .returned k m, done := rest } } : Mux Msg) := by
  have hok := hinv.ok i c hc
  unfold MuxCall.Ok at hok
  rw [hpc] at hok
  rcases hok with ⟨-, -, -, h⟩ | ⟨-, -, -, h⟩ | ⟨hzero, hreg, hcarry, m', hd, htag⟩
  · rw [hdone] at h
    cases h
  · rw [hdone] at h
    cases h
  · rw [hdone] at hd
    cases hd
    refine hinv.callStep hc rfl (fun _ _ => rfl) (fun _ _ _ => rfl)
      ⟨hzero, hreg, hcarry, rfl, rfl, htag⟩ rfl ?_ rfl rfl rfl
    show some (i, m) = c.reply
    unfold MuxCall.reply
    rw [hpc, hdone]
    rfl

end Step

end ComputerScience.Multiplexer
