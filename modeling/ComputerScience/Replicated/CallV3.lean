/-
  ComputerScience.Replicated.CallV3
  ─────────────────────────────────
  **THE REPLICATED CLIENT'S `CallV3`** (`03_replicated_service_client/client.go`).

  Any number of calls run on one client and share `c.prefer`.  A call tries the servers
  one after another from the preferred one; each `select` takes either a result from
  `done` or the timeout.  The loop is left by `goto Done` with a result, or when every
  `select` has timed out, and then `r` is still the zero value: the reply that is returned
  and the index that is stored were never produced (`callV3_all_timeouts`).  `CallV2` waits
  for a result at that point.

  A call whose last `select` does not time out returns what `callOne` gave it.
-/
import ComputerScience.Lib.TransitionSystem
import ComputerScience.Replicated.Fanout

namespace ComputerScience.Replicated

open ComputerScience.Lib

variable {Args Reply : Type}

/-! ## §1. The calls of one client. -/

/-- Where a call is. -/
inductive CallPc where
  /-- before `prefer := c.prefer` -/
  | start
  /-- at the loop test `off < len(c.servers)` -/
  | loop (off : ℕ)
  /-- at the `select`, the goroutine for `off` started -/
  | waiting (off : ℕ)
  /-- at the label `Done` -/
  | done
  /-- after `return r.reply` -/
  | returned
  deriving DecidableEq, Repr

/-- One invocation of `CallV3`. -/
structure Call (Args Reply : Type) where
  args : Args
  pc : CallPc
  /-- The local variable `prefer`. -/
  prefer : ℕ
  r : Result Reply
  fan : Fanout Reply
  /-- What the call wrote to `c.prefer`. -/
  stored : Option ℕ

/-- The `Client`: the shared index and its calls. -/
structure Client (Args Reply : Type) where
  prefer : ℕ
  calls : List (Call Args Reply)

/-- `CallV3(args)` is entered; `var r result` is zero. -/
def Call.enter (svc : Service Args Reply) (args : Args) : Call Args Reply where
  args := args
  pc := .start
  prefer := 0
  r := ⟨0, svc.zero⟩
  fan := Fanout.empty
  stored := none

/-- One step of one call, with the value of `c.prefer` before and after it.  The two
sections under `c.mu` are one step each. -/
inductive CallStep (svc : Service Args Reply) (shared : ℕ) (c : Call Args Reply) :
    ℕ → Call Args Reply → Prop where
  | readPrefer (h : c.pc = .start) :
      CallStep svc shared c shared { c with pc := .loop 0, prefer := shared }
  -- a goroutine for the next server, then the `select`
  | tryServer (off : ℕ) (h : c.pc = .loop off) (hoff : off < svc.servers.length) :
      CallStep svc shared c shared
        { c with
          pc := .waiting off
          fan := c.fan.spawn ((c.prefer + off) % svc.servers.length) }
  | loopEnd (off : ℕ) (h : c.pc = .loop off) (hoff : svc.servers.length ≤ off) :
      CallStep svc shared c shared { c with pc := .done }
  | recv (off : ℕ) (r : Result Reply) (rest : List (Result Reply)) (h : c.pc = .waiting off)
      (hdone : c.fan.done = r :: rest) :
      CallStep svc shared c shared
        { c with pc := .done, r := r, fan := { c.fan with done := rest } }
  -- `case <-t.C`: the next iteration; the goroutine goes on
  | timeout (off : ℕ) (h : c.pc = .waiting off) :
      CallStep svc shared c shared { c with pc := .loop (off + 1) }
  -- `c.prefer = r.serverID`, also after the last timeout
  | writePrefer (h : c.pc = .done) :
      CallStep svc shared c c.r.serverId
        { c with pc := .returned, stored := some c.r.serverId }
  | goroutine (fan : Fanout Reply) (h : FanoutStep svc c.args c.fan fan) :
      CallStep svc shared c shared { c with fan := fan }

/-- One step of the client: a new call, or a step of a call. -/
inductive ClientStep (svc : Service Args Reply) (s : Client Args Reply) :
    Client Args Reply → Prop where
  | enter (args : Args) :
      ClientStep svc s { s with calls := s.calls ++ [Call.enter svc args] }
  | call (k shared : ℕ) (c c' : Call Args Reply) (hk : s.calls[k]? = some c)
      (hstep : CallStep svc s.prefer c shared c') :
      ClientStep svc s ⟨shared, s.calls.set k c'⟩

/-- Any number of calls of `CallV3` on one client. -/
def callV3System (svc : Service Args Reply) : System (Client Args Reply) where
  init s := s = ⟨0, []⟩
  step := ClientStep svc

/-! ## §2. What a call returns. -/

/-- The returned reply came from `callOne(servers[id], args)` for this call, and `id` is
what the call stored. -/
def ReplyProduced (svc : Service Args Reply) (c : Call Args Reply) : Prop :=
  ∃ id srv, svc.servers[id]? = some srv ∧ svc.callOne srv c.args c.r.reply ∧
    ⟨id, c.r.reply⟩ ∈ c.fan.produced ∧ c.stored = some id

/-- Some call lets the last of its `len(c.servers)` selects time out. -/
def LastTimeout (svc : Service Args Reply) (s s' : Client Args Reply) : Prop :=
  ∃ (k off : ℕ) (c c' : Call Args Reply), s.calls[k]? = some c ∧ s'.calls[k]? = some c' ∧
    c.pc = .waiting off ∧ off + 1 = svc.servers.length ∧ c'.pc = .loop (off + 1)

/-- The invariant of one call none of whose selects was the last to time out. -/
structure Call.Ok (svc : Service Args Reply) (c : Call Args Reply) : Prop where
  fan : c.fan.Sound svc c.args
  loop : ∀ off, c.pc = .loop off ∨ c.pc = .waiting off → off < svc.servers.length
  result : c.pc = .done ∨ c.pc = .returned → c.r ∈ c.fan.produced
  stored : c.pc = .returned → c.stored = some c.r.serverId

variable {svc : Service Args Reply}

theorem Call.Ok.enter (args : Args) : (Call.enter svc args).Ok svc := by
  constructor
  · exact Fanout.Sound.empty
  · intro off h
    simp [Call.enter] at h
  · intro h
    simp [Call.enter] at h
  · intro h
    simp [Call.enter] at h

/-- **One step of a call**, other than a timeout of its last select. -/
theorem Call.Ok.step {c c' : Call Args Reply} {shared shared' : ℕ} (hne : svc.servers ≠ [])
    (hok : c.Ok svc) (hstep : CallStep svc shared c shared' c')
    (hlast : ∀ off, c.pc = .waiting off → off + 1 = svc.servers.length → c'.pc ≠ .loop (off + 1)) :
    c'.Ok svc := by
  cases hstep with
  | readPrefer h =>
      constructor
      · exact hok.fan
      · intro off hoff
        have hpos := List.length_pos_iff.mpr hne
        rcases hoff with hoff | hoff
        · injection hoff with hoff
          omega
        · exact absurd hoff (by simp)
      · intro hd
        simp at hd
      · intro hd
        exact absurd hd (by simp)
  | tryServer off h hoff =>
      constructor
      · exact hok.fan.spawn _
      · intro off' hoff'
        rcases hoff' with hoff' | hoff'
        · exact absurd hoff' (by simp)
        · injection hoff' with hoff'
          omega
      · intro hd
        simp at hd
      · intro hd
        exact absurd hd (by simp)
  | loopEnd off h hoff =>
      -- the loop ends this way only after the last timeout
      have := hok.loop off (Or.inl h)
      omega
  -- what is received was produced by a goroutine of this call
  | recv off r rest h hdone =>
      obtain ⟨hr, hsound⟩ := hok.fan.recv hdone
      constructor
      · exact hsound
      · intro off' hoff'
        simp at hoff'
      · intro _
        exact hr
      · intro hd
        exact absurd hd (by simp)
  | timeout off h =>
      have hlt := hok.loop off (Or.inr h)
      -- this was not the last select
      have hnot : off + 1 ≠ svc.servers.length := fun heq => hlast off h heq rfl
      constructor
      · exact hok.fan
      · intro off' hoff'
        rcases hoff' with hoff' | hoff'
        · injection hoff' with hoff'
          omega
        · exact absurd hoff' (by simp)
      · intro hd
        simp at hd
      · intro hd
        exact absurd hd (by simp)
  | writePrefer h =>
      constructor
      · exact hok.fan
      · intro off hoff
        simp at hoff
      · intro _
        exact hok.result (Or.inl h)
      · intro _
        rfl
  | goroutine fan h =>
      constructor
      · exact hok.fan.step h
      · exact hok.loop
      · intro hd
        exact h.produced_mono (hok.result hd)
      · exact hok.stored

/-! ## §3. Whole runs. -/

/-- In a run without a last timeout every call keeps its invariant. -/
theorem callV3_invariant (hne : svc.servers ≠ []) {s : Client Args Reply}
    (hs : ((callV3System svc).restrict (fun s s' => ¬ LastTimeout svc s s')).Reachable s) :
    ∀ c ∈ s.calls, c.Ok svc := by
  refine hs.invariant (I := fun s => ∀ c ∈ s.calls, c.Ok svc) ?_ ?_
  · intro s h0 c hc
    rw [show s = ⟨0, []⟩ from h0] at hc
    exact absurd hc (by simp)
  · intro s s' _ hok hstep
    obtain ⟨hstep, hallow⟩ := hstep
    cases hstep with
    | enter args =>
        intro c hc
        rcases List.mem_append.mp hc with hold | hnew
        · exact hok c hold
        · rw [List.mem_singleton.mp hnew]
          exact Call.Ok.enter args
    | call k shared c c' hk hcall =>
        -- the call that moved; the others are as they were
        have hc' : c'.Ok svc := by
          apply (hok c (List.mem_of_getElem? hk)).step hne hcall
          intro off hw hlen hloop
          have hlt := (List.getElem?_eq_some_iff.mp hk).1
          exact hallow ⟨k, off, c, c', hk, List.getElem?_set_self hlt, hw, hlen, hloop⟩
        intro d hd
        obtain ⟨j, hj⟩ := List.getElem?_of_mem hd
        rcases getElem?_set_cases hj with ⟨_, he⟩ | ⟨_, hold⟩
        · rw [he]
          exact hc'
        · exact hok d (List.mem_of_getElem? hold)

/-- **`CallV3` returns a reply that was produced for it**, in every state of every run in
which no call lets the last of its selects time out. -/
theorem callV3_reply_produced (svc : Service Args Reply) (hne : svc.servers ≠ [])
    (s : Client Args Reply)
    (hs : ((callV3System svc).restrict (fun s s' => ¬ LastTimeout svc s s')).Reachable s) :
    ∀ c ∈ s.calls, c.pc = .returned → ReplyProduced svc c := by
  intro c hc hret
  have hok := callV3_invariant hne hs c hc
  have hr := hok.result (Or.inr hret)
  obtain ⟨srv, hsrv, hcall⟩ := hok.fan.produced c.r hr
  exact ⟨c.r.serverId, srv, hsrv, hcall, hr, hok.stored hret⟩

/-- Two servers; the reply to a request is its successor. -/
def twoServers : Service ℕ ℕ where
  servers := ["s0", "s1"]
  callOne _ args v := v = args + 1
  zero := 0

/-- The first server is slow, the second answers. -/
theorem callV3_reply_produced_twoServers :
    ∃ s, (callV3System twoServers).Reachable s ∧
      ∃ c ∈ s.calls, c.pc = .returned ∧ c.stored = some 1 ∧ ReplyProduced twoServers c := by
  let M := (callV3System twoServers).restrict (fun s s' => ¬ LastTimeout twoServers s s')
  -- a step of the only call that is not the timeout of its second select
  have hone : ∀ {p p' : ℕ} {c c' : Call ℕ ℕ}, M.Reachable ⟨p, [c]⟩ →
      CallStep twoServers p c p' c' → c'.pc ≠ .loop 2 → M.Reachable ⟨p', [c']⟩ := by
    intro p p' c c' hr hstep hpc
    refine hr.tail ⟨ClientStep.call 0 p' c c' rfl hstep, ?_⟩
    rintro ⟨k, off, d, d', hk, hk', -, hlen, hloop⟩
    obtain rfl : off = 1 := by
      have : off + 1 = 2 := hlen
      omega
    have hd' : d' = c' := by
      cases k with
      | zero => exact (Option.some.inj hk').symm
      | succ k => simp at hk'
    rw [hd'] at hloop
    exact hpc hloop
  have h0 : M.Reachable ⟨0, [Call.enter twoServers 5]⟩ := by
    refine (System.Reachable.of_init (M := M) (s := ⟨0, []⟩) rfl).tail ⟨ClientStep.enter 5, ?_⟩
    rintro ⟨k, off, d, d', hk, -⟩
    simp at hk
  have h1 := hone (hone (hone (hone h0 (.readPrefer rfl) (by simp)) (.tryServer 0 rfl Nat.two_pos)
    (by simp)) (.timeout 0 rfl) (by simp)) (.tryServer 1 rfl Nat.one_lt_two) (by simp)
  have h2 := hone (hone h1 (.goroutine _ (.produce 1 1 "s1" 6 rfl rfl rfl)) (by simp))
    (.goroutine _ (.send 1 ⟨1, 6⟩ rfl Nat.two_pos)) (by simp)
  have h3 := hone (hone h2 (.recv 1 ⟨1, 6⟩ [] rfl rfl) (by simp)) (.writePrefer rfl) (by simp)
  exact ⟨_, h3.of_restrict, _, List.mem_singleton.mpr rfl, rfl, rfl,
    callV3_reply_produced twoServers (by simp [twoServers]) _ h3 _ (List.mem_singleton.mpr rfl) rfl⟩

/-- **One slow server**: the only select times out, and the call returns and stores zero
values although `callOne` has produced nothing. -/
theorem callV3_all_timeouts :
    ¬ ∀ (svc : Service ℕ ℕ), svc.servers ≠ [] → ∀ s, (callV3System svc).Reachable s →
      ∀ c ∈ s.calls, c.pc = .returned → ReplyProduced svc c := by
  intro hall
  let slow : Service ℕ ℕ := ⟨["s0"], fun _ args v => v = args + 1, 0⟩
  have hone : ∀ {p p' : ℕ} {c c' : Call ℕ ℕ}, (callV3System slow).Reachable ⟨p, [c]⟩ →
      CallStep slow p c p' c' → (callV3System slow).Reachable ⟨p', [c']⟩ :=
    fun hr hstep => hr.tail (ClientStep.call 0 _ _ _ rfl hstep)
  have h0 : (callV3System slow).Reachable ⟨0, [Call.enter slow 5]⟩ :=
    (System.Reachable.of_init (M := callV3System slow) (s := ⟨0, []⟩) rfl).tail
      (ClientStep.enter 5)
  have h1 := hone (hone (hone (hone (hone h0 (.readPrefer rfl)) (.tryServer 0 rfl Nat.one_pos))
    (.timeout 0 rfl)) (.loopEnd 1 rfl (Nat.le_refl 1))) (.writePrefer rfl)
  obtain ⟨id, srv, -, -, hprod, -⟩ :=
    hall slow (by simp [slow]) _ h1 _ (List.mem_singleton.mpr rfl) rfl
  simp [Call.enter, Fanout.empty, Fanout.spawn] at hprod

end ComputerScience.Replicated
