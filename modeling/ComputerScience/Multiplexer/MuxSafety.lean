/-
  ComputerScience.Multiplexer.MuxSafety
  ─────────────────────────────────────
  **WHAT THE MULTIPLEXER GUARANTEES, AND WHERE IT HANGS.**

    • `mux_safety` — with a usable channel in `m.send`: every `Call` that returns has the
      reply to its own request, every received reply goes to one `Call`, `recvLoop` neither
      panics nor waits at `done <- reply`, and a duplicate tag leaves `pending` alone;
    • `initMux_blocked` — after `Init` alone `m.send` is nil: a registered `Call` never
      hands its message over, in any continuation of any run.
-/
import ComputerScience.Multiplexer.Mux

namespace ComputerScience.Multiplexer

open ComputerScience.Lib

variable {Msg : Type} {readTag : Msg → Int64} {send : Option ℕ} {s s' : Mux Msg}

/-! ## §1. One step keeps the account of the requests. -/

/-- `recvLoop` goes on with the same reply, on the same side of the lookup. -/
theorem MuxInv.recvStep (hinv : MuxInv readTag s) {r : RecvPc Msg} (mu : Option MuxOwner)
    (atLock : Int64 → Option ℕ)
    (htoken : ∀ j, r.token j = s.recvLoop.token j)
    (hcarry : ∀ j, r.Carries j = s.recvLoop.Carries j) (hheld : r.held = s.recvLoop.held)
    (hok : r.Ok) :
    MuxInv readTag ({ s with recvLoop := r, mu := mu, atLock := atLock } : Mux Msg) := by
  refine hinv.flowStep rfl rfl ?_ hcarry ?_ hok ?_
  · intro j
    unfold Mux.flow
    rw [← htoken j]
  · intro k m h
    dsimp only at h
    rw [hheld] at h
    exact hinv.tags k m h
  · intro k m
    dsimp only
    rw [hheld]
    exact hinv.received k m

/-- **One step** keeps the invariant, whatever the channel `m.send` is. -/
theorem MuxInv.step (hinv : MuxInv readTag s) (hs : MuxStep readTag send s s') :
    MuxInv readTag s' := by
  cases hs with
  | call args => exact hinv.newCall args
  | callLock i c h hpc hmu =>
      exact hinv.pcStep h rfl (by rw [hpc]; rfl) rfl (fun _ => rfl) rfl rfl rfl rfl
  | duplicate i c h hpc hpend =>
      exact hinv.pcStep h rfl (by rw [hpc]; rfl) rfl (fun _ => rfl) rfl rfl rfl rfl
  | panic i c h hpc =>
      exact hinv.pcStep h rfl (by rw [hpc]; rfl) rfl (fun _ => rfl) rfl rfl rfl rfl
  | register i c h hpc hpend => exact hinv.register h hpc hpend
  | callUnlock i c h hpc =>
      exact hinv.pcStep h rfl (by rw [hpc]; rfl) rfl (fun _ => rfl) rfl rfl rfl rfl
  | handOver i cap c h hpc hsend hq hl =>
      refine hinv.sendStep h hpc rfl ?_ rfl rfl rfl rfl
      intro j
      unfold Mux.flow
      rw [hl]
      simp only [SendPc.token]
      omega
  | enqueue i cap c h hpc hsend hroom =>
      refine hinv.sendStep h hpc rfl ?_ rfl rfl rfl rfl
      intro j
      unfold Mux.flow
      simp only [List.count_append, List.count_singleton, beq_iff_eq]
      omega
  | dequeue i rest hq hl =>
      refine hinv.flowStep rfl rfl ?_ (fun _ => rfl) hinv.tags hinv.recv hinv.received
      intro j
      unfold Mux.flow
      rw [hl, hq]
      simp only [SendPc.token, List.count_cons, beq_iff_eq]
      omega
  | srvSend i hl =>
      refine hinv.flowStep rfl rfl ?_ (fun _ => rfl) hinv.tags hinv.recv hinv.received
      intro j
      unfold Mux.flow
      rw [hl]
      simp only [SendPc.token, List.count_append, List.count_singleton, beq_iff_eq]
      omega
  | srvSendReturn i hl =>
      refine hinv.flowStep rfl rfl ?_ (fun _ => rfl) hinv.tags hinv.recv hinv.received
      intro j
      unfold Mux.flow
      rw [hl]
      rfl
  | answer k c reply hk h htag =>
      refine hinv.flowStep rfl rfl ?_ (fun _ => rfl) ?_ hinv.recv hinv.received
      · intro j
        have hpos : 0 < s.unanswered.count k := List.count_pos_iff.mpr hk
        unfold Mux.flow
        simp only [List.map_append, List.map_cons, List.map_nil, List.count_append,
          List.count_singleton, List.count_erase, beq_iff_eq]
        by_cases hkj : k = j
        · subst hkj
          simp only [if_true]
          omega
        · simp only [hkj, if_false]
          omega
      · intro k' m' hkm d hd
        rcases hkm with hin | hheld
        · rcases List.mem_append.mp hin with hin | hin
          · exact hinv.tags k' m' (Or.inl hin) d hd
          · cases List.mem_singleton.mp hin
            rw [h] at hd
            cases hd
            exact htag
        · exact hinv.tags k' m' (Or.inr hheld) d hd
  | srvRecv before after k reply hin hl =>
      refine hinv.flowStep rfl rfl ?_ ?_ ?_ trivial ?_
      · intro j
        unfold Mux.flow
        rw [hl, hin]
        simp only [RecvPc.token, List.map_append, List.map_cons, List.count_append,
          List.count_cons, beq_iff_eq]
        omega
      · intro j
        rw [hl]
        rfl
      · intro k' m' hkm
        apply hinv.tags k' m'
        rw [hin]
        rcases hkm with h | h
        · rcases List.mem_append.mp h with h | h
          · exact Or.inl (List.mem_append_left _ h)
          · exact Or.inl (List.mem_append_right _ (List.mem_cons_of_mem _ h))
        · cases h
          exact Or.inl (List.mem_append_right _ List.mem_cons_self)
      · intro k' m'
        have hold := hinv.received k' m'
        rw [hl] at hold
        show (k', m') ∈ s.received ++ [(k, reply)] ↔ some (k, reply) = some (k', m') ∨ _
        rw [List.mem_append, List.mem_singleton, hold]
        simp only [RecvPc.held, Option.some.injEq, reduceCtorEq, false_or]
        rw [or_comm, eq_comm]
  | recvLock k reply hl hmu =>
      exact hinv.recvStep _ _ (fun j => by rw [hl]; rfl) (fun j => by rw [hl]; rfl)
        (by rw [hl]; rfl) trivial
  | take k reply hl => exact hinv.take hl
  | recvUnlock k reply done hl =>
      have hok : done = some k := by
        have := hinv.recv
        rw [hl] at this
        exact this
      exact hinv.recvStep _ s.atLock (fun j => by rw [hl]; rfl) (fun j => by rw [hl]; rfl)
        (by rw [hl]; rfl) hok
  | unexpected k reply hl =>
      -- `recvLoop` found the channel of the `Call`, not nil
      have := hinv.recv
      rw [hl] at this
      cases this
  | expected k i reply hl =>
      have hok : some i = some k := by
        have := hinv.recv
        rw [hl] at this
        exact this
      exact hinv.recvStep s.mu s.atLock (fun j => by rw [hl]; rfl) (fun j => by rw [hl]; rfl)
        (by rw [hl]; rfl) (Option.some.inj hok)
  | deliver k i reply c hl h hroom => exact (hinv.deliver hl h).2.2.2
  | callReturn i k reply rest c h hpc hdone => exact hinv.callReturn h hpc hdone

theorem muxInv_reachable (h : (muxSystem readTag send).Reachable s) : MuxInv readTag s := by
  refine System.Reachable.invariant (M := muxSystem readTag send) (I := MuxInv readTag) ?_ ?_ h
  · rintro s rfl
    constructor
    · exact fun i c hc => by cases hc
    · exact fun i _ => ⟨rfl, fun t h => (by cases h), id⟩
    · exact fun k m _ c hc => by cases hc
    · trivial
    · intro k m
      simp [RecvPc.held]
  · intro s s' _ hinv hs
    exact hinv.step hs

/-! ## §2. The mutex. -/

/-- The `Call` holds `m.mu`. -/
def CallPc.locked : CallPc Msg → Bool
  | .checking | .rejecting | .registered => true
  | .start | .panicked | .sending | .waiting | .returned _ _ => false

/-- The `Call` holds `m.mu` and has not changed `pending`. -/
def CallPc.unchanged : CallPc Msg → Bool
  | .checking | .rejecting => true
  | _ => false

/-- `recvLoop` holds `m.mu`. -/
def RecvPc.locked : RecvPc Msg → Bool
  | .taking _ _ | .unlocking _ _ _ => true
  | _ => false

def Mux.Inside (s : Mux Msg) : MuxOwner → Prop
  | .call i => ∃ c, s.calls[i]? = some c ∧ c.pc.locked = true
  | .recvLoop => s.recvLoop.locked = true

def Mux.Unchanged (s : Mux Msg) : MuxOwner → Prop
  | .call i => ∃ c, s.calls[i]? = some c ∧ c.pc.unchanged = true
  | .recvLoop => False

/-- The invariant of the mutex. -/
structure MuxLock (s : Mux Msg) : Prop where
  inside : ∀ o, s.Inside o → s.mu = some o
  kept : ∀ o, s.Unchanged o → s.pending = s.atLock

theorem Mux.Unchanged.inside {o : MuxOwner} (h : s.Unchanged o) : s.Inside o := by
  cases o with
  | recvLoop => exact h.elim
  | call i =>
      obtain ⟨c, hc, hpc⟩ := h
      refine ⟨c, hc, ?_⟩
      cases hp : c.pc with
      | checking => rfl
      | rejecting => rfl
      | _ =>
          rw [hp] at hpc
          cases hpc

/-- **The goroutine that holds the mutex, or takes it, moves**: all others are outside. -/
theorem MuxLock.move (hlock : MuxLock s) {o : MuxOwner} (hmu : s.mu = none ∨ s.mu = some o)
    (hother : ∀ o', o' ≠ o → s'.Inside o' → s.Inside o')
    (hself : s'.Inside o → s'.mu = some o) (hkept : s'.Unchanged o → s'.pending = s'.atLock) :
    MuxLock s' := by
  have hout : ∀ o', o' ≠ o → ¬ s'.Inside o' := by
    intro o' hne hin
    have := hlock.inside o' (hother o' hne hin)
    rcases hmu with h | h
    · rw [h] at this
      cases this
    · rw [h] at this
      exact hne (Option.some.inj this).symm
  constructor
  · intro o' hin
    by_cases ho : o' = o
    · subst ho
      exact hself hin
    · exact absurd hin (hout o' ho)
  · intro o' hun
    by_cases ho : o' = o
    · subst ho
      exact hkept hun
    · exact absurd hun.inside (hout o' ho)

/-- Who is inside of the mutex stays where it is. -/
theorem MuxLock.frame (hlock : MuxLock s) (hmu : s'.mu = s.mu) (hpend : s'.pending = s.pending)
    (hat : s'.atLock = s.atLock) (hrecv : s'.recvLoop.locked = true → s.recvLoop.locked = true)
    (hcalls : ∀ (j : ℕ) (d : MuxCall Msg), s'.calls[j]? = some d → d.pc.locked = true →
      s.calls[j]? = some d) : MuxLock s' := by
  constructor
  · intro o ho
    rw [hmu]
    apply hlock.inside o
    cases o with
    | recvLoop => exact hrecv ho
    | call j =>
        obtain ⟨d, hd, hpc⟩ := ho
        exact ⟨d, hcalls j d hd hpc, hpc⟩
  · intro o ho
    rw [hpend, hat]
    apply hlock.kept o
    cases o with
    | recvLoop => exact ho.elim
    | call j =>
        obtain ⟨d', hd', hin⟩ := ho.inside
        obtain ⟨d, hd, hpc⟩ := ho
        have hdd : d' = d := Option.some.inj (hd'.symm.trans hd)
        rw [hdd] at hin
        exact ⟨d, hcalls j d hd hin, hpc⟩

/-- Which goroutines hold the mutex after the `Call` `i` moved. -/
theorem Mux.inside_set {i : ℕ} {c' : MuxCall Msg} (hcalls : s'.calls = s.calls.set i c')
    (hrecv : s'.recvLoop = s.recvLoop) {o : MuxOwner} (ho : o ≠ .call i) (h : s'.Inside o) :
    s.Inside o := by
  cases o with
  | recvLoop =>
      show s.recvLoop.locked = true
      rw [← hrecv]
      exact h
  | call j =>
      obtain ⟨d, hd, hpc⟩ := h
      rw [hcalls] at hd
      rcases getElem?_set_cases hd with ⟨rfl, -⟩ | ⟨-, hd⟩
      · exact absurd rfl ho
      · exact ⟨d, hd, hpc⟩

/-- A `Call` moves between two places outside of the mutex. -/
theorem MuxLock.callFrame (hlock : MuxLock s) {i : ℕ} {c' : MuxCall Msg}
    (hcalls : s'.calls = s.calls.set i c') (hout : c'.pc.locked = false)
    (hrecv : s'.recvLoop.locked = true → s.recvLoop.locked = true) (hmu : s'.mu = s.mu)
    (hpend : s'.pending = s.pending) (hat : s'.atLock = s.atLock) : MuxLock s' := by
  refine hlock.frame hmu hpend hat hrecv ?_
  intro j d hd hpc
  rw [hcalls] at hd
  rcases getElem?_set_cases hd with ⟨-, rfl⟩ | ⟨-, hd⟩
  · rw [hout] at hpc
    cases hpc
  · exact hd

/-- A `Call` that holds the mutex, or takes it, moves. -/
theorem MuxLock.callMove (hlock : MuxLock s) {i : ℕ} {c c' : MuxCall Msg}
    (hc : s.calls[i]? = some c) (hcalls : s'.calls = s.calls.set i c')
    (hrecv : s'.recvLoop = s.recvLoop)
    (hmu : s.mu = none ∨ c.pc.locked = true) (hself : c'.pc.locked = true → s'.mu = some (.call i))
    (hkept : c'.pc.unchanged = true → s'.pending = s'.atLock) : MuxLock s' := by
  have hlt : i < s.calls.length := (List.getElem?_eq_some_iff.mp hc).1
  have hi : s'.calls[i]? = some c' := by
    rw [hcalls, List.getElem?_set_self hlt]
  refine hlock.move (o := .call i) ?_ (fun o ho => Mux.inside_set hcalls hrecv ho) ?_ ?_
  · rcases hmu with h | h
    · exact Or.inl h
    · exact Or.inr (hlock.inside _ ⟨c, hc, h⟩)
  · rintro ⟨d, hd, hpc⟩
    rw [hi] at hd
    cases hd
    exact hself hpc
  · rintro ⟨d, hd, hpc⟩
    rw [hi] at hd
    cases hd
    exact hkept hpc

/-- `recvLoop` moves: inside of the mutex, or from outside to outside. -/
theorem MuxLock.recvMove (hlock : MuxLock s) (hcalls : s'.calls = s.calls)
    (hmu : s.mu = none ∨ s.recvLoop.locked = true)
    (hself : s'.recvLoop.locked = true → s'.mu = some .recvLoop) : MuxLock s' := by
  refine hlock.move (o := .recvLoop) ?_ ?_ hself (fun h => h.elim)
  · rcases hmu with h | h
    · exact Or.inl h
    · exact Or.inr (hlock.inside .recvLoop h)
  · intro o ho h
    cases o with
    | recvLoop => exact absurd rfl ho
    | call j =>
        obtain ⟨d, hd, hpc⟩ := h
        rw [hcalls] at hd
        exact ⟨d, hd, hpc⟩

/-- **One step** keeps the invariant of the mutex. -/
theorem MuxLock.step (hlock : MuxLock s) (hinv : MuxInv readTag s)
    (hs : MuxStep readTag send s s') : MuxLock s' := by
  cases hs with
  | call args =>
      refine hlock.frame rfl rfl rfl id ?_
      intro j d hd hpc
      rcases getElem?_concat_cases hd with hd | ⟨-, rfl⟩
      · exact hd
      · cases hpc
  | callLock i c h hpc hmu =>
      exact hlock.callMove h rfl rfl (Or.inl hmu) (fun _ => rfl) (fun _ => rfl)
  | duplicate i c h hpc hpend =>
      have hin : c.pc.locked = true := by rw [hpc]; rfl
      exact hlock.callMove h rfl rfl (Or.inr hin) (fun _ => hlock.inside (.call i) ⟨c, h, hin⟩)
        (fun _ => hlock.kept (.call i) ⟨c, h, by rw [hpc]; rfl⟩)
  | panic i c h hpc =>
      exact hlock.callMove h rfl rfl (Or.inr (by rw [hpc]; rfl)) (fun h => by cases h)
        (fun h => by cases h)
  | register i c h hpc hpend =>
      have hin : c.pc.locked = true := by rw [hpc]; rfl
      exact hlock.callMove h rfl rfl (Or.inr hin) (fun _ => hlock.inside (.call i) ⟨c, h, hin⟩)
        (fun h => by cases h)
  | callUnlock i c h hpc =>
      exact hlock.callMove h rfl rfl (Or.inr (by rw [hpc]; rfl)) (fun h => by cases h)
        (fun h => by cases h)
  | handOver i cap c h hpc hsend hq hl => exact hlock.callFrame rfl rfl id rfl rfl rfl
  | enqueue i cap c h hpc hsend hroom => exact hlock.callFrame rfl rfl id rfl rfl rfl
  | dequeue i rest hq hl => exact hlock.frame rfl rfl rfl id (fun _ _ h _ => h)
  | srvSend i hl => exact hlock.frame rfl rfl rfl id (fun _ _ h _ => h)
  | srvSendReturn i hl => exact hlock.frame rfl rfl rfl id (fun _ _ h _ => h)
  | answer k c reply hk h htag => exact hlock.frame rfl rfl rfl id (fun _ _ h _ => h)
  | srvRecv before after k reply hin hl => exact hlock.frame rfl rfl rfl (fun h => by cases h) (fun _ _ h _ => h)
  | recvLock k reply hl hmu => exact hlock.recvMove rfl (Or.inl hmu) (fun _ => rfl)
  | take k reply hl =>
      have hin : s.recvLoop.locked = true := by rw [hl]; rfl
      exact hlock.recvMove rfl (Or.inr hin) (fun _ => hlock.inside .recvLoop hin)
  | recvUnlock k reply done hl =>
      exact hlock.recvMove rfl (Or.inr (by rw [hl]; rfl)) (fun h => by cases h)
  | unexpected k reply hl => exact hlock.frame rfl rfl rfl (fun h => by cases h) (fun _ _ h _ => h)
  | expected k i reply hl => exact hlock.frame rfl rfl rfl (fun h => by cases h) (fun _ _ h _ => h)
  | deliver k i reply c hl h hroom =>
      refine hlock.callFrame rfl ?_ (fun h => by cases h) rfl rfl rfl
      show c.pc.locked = false
      rw [(hinv.deliver hl h).1]
      rfl
  | callReturn i k reply rest c h hpc hdone => exact hlock.callFrame rfl rfl id rfl rfl rfl

theorem muxLock_reachable (h : (muxSystem readTag send).Reachable s) : MuxLock s := by
  refine System.Reachable.invariant (M := muxSystem readTag send) (I := MuxLock) ?_ ?_ h
  · rintro s rfl
    constructor
    · intro o ho
      cases o with
      | recvLoop => cases ho
      | call i =>
          obtain ⟨c, hc, -⟩ := ho
          cases hc
    · intro o _
      rfl
  · intro s s' hr hlock hs
    exact hlock.step (muxInv_reachable hr) hs

/-! ## §3. Safety. -/

/-- The reply that a `Call` has got answers its own request. -/
theorem MuxInv.reply_own (hinv : MuxInv readTag s) {i k : ℕ} {c : MuxCall Msg} {m : Msg}
    (hc : s.calls[i]? = some c) (hreply : c.reply = some (k, m)) :
    k = i ∧ readTag m = readTag c.args := by
  have hok := hinv.ok i c hc
  unfold MuxCall.Ok at hok
  unfold MuxCall.reply at hreply
  cases hpc : c.pc with
  | returned k' m' =>
      rw [hpc] at hok hreply
      cases hreply
      exact hok.2.2.2.2
  | waiting =>
      rw [hpc] at hok hreply
      rcases hok with ⟨-, -, -, h⟩ | ⟨-, -, -, h⟩ | ⟨-, -, -, m', h, htag⟩
      · rw [h] at hreply
        cases hreply
      · rw [h] at hreply
        cases hreply
      · rw [h] at hreply
        cases hreply
        exact ⟨rfl, htag⟩
  | _ =>
      rw [hpc] at hok hreply
      rw [hok.2.2.2] at hreply
      cases hreply

/-- `recvLoop` finds room in the channel `done`. -/
theorem MuxInv.room (hinv : MuxInv readTag s) {k i : ℕ} {m : Msg}
    (hl : s.recvLoop = .delivering k m i) :
    ∃ c, s.calls[i]? = some c ∧ c.done.length < 1 := by
  have hik : i = k := by
    have := hinv.recv
    rw [hl] at this
    exact this
  cases hc : s.calls[i]? with
  | none =>
      rw [hik] at hc
      exact absurd hc (hinv.reply_call (Or.inr (by rw [hl]; rfl)))
  | some c =>
      refine ⟨c, rfl, ?_⟩
      rw [(hinv.deliver hl hc).2.1]
      exact Nat.one_pos

/-- **Safety of the multiplexer**, for a channel `m.send` of any capacity, in every state of
every run:
  • a `Call` that returned has a reply that answers its own request, with its own tag;
  • every received reply is in the hands of `recvLoop` or has gone to exactly one `Call`;
  • `recvLoop` has not panicked, and never waits at `done <- reply`;
  • a `Call` with a duplicate tag holds the mutex with `pending` as it was at its `Lock`, and
    its next step, `Unlock` and `panic`, leaves `pending` so. -/
theorem mux_safety (readTag : Msg → Int64) (cap : ℕ) (s : Mux Msg)
    (h : (muxSystem readTag (some cap)).Reachable s) :
    (∀ (i k : ℕ) (c : MuxCall Msg) (m : Msg), s.calls[i]? = some c → c.pc = .returned k m →
      k = i ∧ readTag m = readTag c.args ∧ (k, m) ∈ s.received) ∧
    (∀ (k : ℕ) (m : Msg), (k, m) ∈ s.received → s.recvLoop.held = some (k, m) ∨
      ∃! i : ℕ, ∃ c, s.calls[i]? = some c ∧ c.reply = some (k, m)) ∧
    s.recvLoop ≠ .panicked ∧
    (∀ (k i : ℕ) (m : Msg), s.recvLoop = .delivering k m i →
      ∃ c, s.calls[i]? = some c ∧ c.done.length < 1) ∧
    (∀ (i : ℕ) (c : MuxCall Msg), s.calls[i]? = some c → c.pc = .rejecting →
      s.mu = some (.call i) ∧ s.pending = s.atLock ∧
        MuxStep readTag (some cap) s { s with
          calls := s.calls.set i { c with pc := .panicked }
          mu := none }) := by
  have hinv : MuxInv readTag s := muxInv_reachable h
  have hlock : MuxLock s := muxLock_reachable h
  refine ⟨?_, ?_, ?_, ?_, ?_⟩
  · intro i k c m hc hpc
    have hreply : c.reply = some (k, m) := by
      unfold MuxCall.reply
      rw [hpc]
    obtain ⟨hk, htag⟩ := hinv.reply_own hc hreply
    subst hk
    exact ⟨rfl, htag, (hinv.received k m).mpr (Or.inr ⟨c, hc, hreply⟩)⟩
  · intro k m hm
    rcases (hinv.received k m).mp hm with hheld | ⟨c, hc, hreply⟩
    · exact Or.inl hheld
    · refine Or.inr ⟨k, ⟨c, hc, hreply⟩, ?_⟩
      rintro j ⟨d, hd, hdreply⟩
      exact (hinv.reply_own hd hdreply).1.symm
  · intro hp
    have := hinv.recv
    rw [hp] at this
    exact this
  · intro k i m hl
    exact hinv.room hl
  · intro i c hc hpc
    refine ⟨?_, ?_, MuxStep.panic i c hc hpc⟩
    · exact hlock.inside (.call i) ⟨c, hc, by rw [hpc]; rfl⟩
    · exact hlock.kept (.call i) ⟨c, hc, by rw [hpc]; rfl⟩

/-- One `Call` over an unbuffered channel, from its first statement to its return. -/
theorem mux_returned : ∃ (s : Mux Int64) (c : MuxCall Int64),
    (muxSystem id (some 0)).Reachable s ∧ s.calls[0]? = some c ∧ c.pc = .returned 0 7 := by
  have h0 := System.Reachable.of_init (M := muxSystem (id : Int64 → Int64) (some 0)) rfl
  have h1 := h0.tail (MuxStep.call 7)
  have h2 := h1.tail (MuxStep.callLock 0 _ rfl rfl rfl)
  have h3 := h2.tail (MuxStep.register 0 _ rfl rfl rfl)
  have h4 := h3.tail (MuxStep.callUnlock 0 _ rfl rfl)
  have h5 := h4.tail (MuxStep.handOver 0 0 _ rfl rfl rfl rfl rfl)
  have h6 := h5.tail (MuxStep.srvSend 0 rfl)
  have h7 := h6.tail (MuxStep.answer 0 _ 7 (by decide) rfl rfl)
  have h8 := h7.tail (MuxStep.srvRecv [] [] 0 7 rfl rfl)
  have h9 := h8.tail (MuxStep.recvLock 0 7 rfl rfl)
  have h10 := h9.tail (MuxStep.take 0 7 rfl)
  have h11 := h10.tail (MuxStep.recvUnlock 0 7 _ rfl)
  have h12 := h11.tail (MuxStep.expected 0 0 7 rfl)
  have h13 := h12.tail (MuxStep.deliver 0 0 7 _ rfl rfl (by decide))
  have h14 := h13.tail (MuxStep.callReturn 0 0 7 [] _ rfl rfl rfl)
  exact ⟨_, _, h14, rfl, rfl⟩

theorem mux_safety_returned : ∃ (s : Mux Int64) (c : MuxCall Int64),
    (muxSystem id (some 0)).Reachable s ∧ s.calls[0]? = some c ∧ c.pc = .returned 0 7 ∧
      id 7 = id c.args ∧ (0, 7) ∈ s.received ∧ s.recvLoop ≠ .panicked := by
  obtain ⟨s, c, h, hc, hpc⟩ := mux_returned
  have hsafe := mux_safety id 0 s h
  obtain ⟨-, htag, hmem⟩ := hsafe.1 0 0 c 7 hc hpc
  exact ⟨s, c, h, hc, hpc, htag, hmem, hsafe.2.2.1⟩

/-! ## §4. Handing a message over to `sendLoop`. -/

/-- The step that hands a message from some `Call` to `sendLoop` is enabled. -/
def HandOverEnabled (readTag : Msg → Int64) (send : Option ℕ) (s : Mux Msg) : Prop :=
  ∃ s', MuxStep readTag send s s' ∧ s.sendLoop = .ranging ∧ ∃ j, s'.sendLoop = .calling j

/-- With a channel in `m.send` a `Call` that wants to send is served as soon as `sendLoop`
is back at its `range`. -/
theorem handOver_enabled (cap i : ℕ) (c : MuxCall Msg) (hc : s.calls[i]? = some c)
    (hpc : c.pc = .sending) (hl : s.sendLoop = .ranging) :
    HandOverEnabled readTag (some cap) s := by
  cases hq : s.queue with
  | nil => exact ⟨_, MuxStep.handOver i cap c hc hpc rfl hq hl, hl, i, rfl⟩
  | cons j rest => exact ⟨_, MuxStep.dequeue j rest hq hl, hl, j, rfl⟩

/-- On a nil `m.send` nothing gets to `sendLoop`, and `srv.Send` sees no message. -/
theorem nilSend_step (hs : MuxStep readTag none s s')
    (hidle : s.sendLoop = .ranging ∧ s.queue = [] ∧ s.sent = []) :
    s'.sendLoop = .ranging ∧ s'.queue = [] ∧ s'.sent = [] := by
  obtain ⟨hl, hq, hsent⟩ := hidle
  cases hs with
  | handOver i cap c h hpc hsend hq hl => cases hsend
  | enqueue i cap c h hpc hsend hroom => cases hsend
  | dequeue i rest hq' hl' =>
      rw [hq] at hq'
      cases hq'
  | srvSend i hl' =>
      rw [hl] at hl'
      cases hl'
  | srvSendReturn i hl' =>
      rw [hl] at hl'
      cases hl'
  | _ => exact ⟨hl, hq, hsent⟩

theorem nilSend_reachable (h : (initMux readTag).Reachable s) :
    s.sendLoop = .ranging ∧ s.queue = [] ∧ s.sent = [] := by
  refine System.Reachable.invariant (M := initMux readTag)
    (I := fun s => s.sendLoop = .ranging ∧ s.queue = [] ∧ s.sent = []) ?_ ?_ h
  · rintro s rfl
    exact ⟨rfl, rfl, rfl⟩
  · intro s s' _ hidle hs
    exact nilSend_step hs hidle

/-- On a nil `m.send` a `Call` that has registered stays where it is, or comes to its send. -/
theorem nilSend_registered (hs : MuxStep readTag none s s') {i : ℕ} {c : MuxCall Msg}
    (hc : s.calls[i]? = some c) (hpc : c.pc.registers = some true) :
    ∃ c', s'.calls[i]? = some c' ∧ c'.args = c.args ∧ c'.pc.registers = some true := by
  -- what a step of the `Call` `j` does to the `Call` `i`
  have hset : ∀ {j : ℕ} {d d' : MuxCall Msg}, s.calls[j]? = some d →
      (d.pc.registers = some true → d'.args = d.args ∧ d'.pc.registers = some true) →
      ∃ c', (s.calls.set j d')[i]? = some c' ∧ c'.args = c.args ∧
        c'.pc.registers = some true := by
    intro j d d' hj hd
    rcases getElem?_set_of_some d' hj hc with ⟨-, rfl, hi⟩ | ⟨-, hi⟩
    · exact ⟨d', hi, hd hpc⟩
    · exact ⟨c, hi, rfl, hpc⟩
  cases hs with
  | call args =>
      have hlt : i < s.calls.length := (List.getElem?_eq_some_iff.mp hc).1
      exact ⟨c, (List.getElem?_append_left hlt).trans hc, rfl, hpc⟩
  | callLock j d h hpc' hmu => exact hset h (fun hr => by rw [hpc'] at hr; cases hr)
  | duplicate j d h hpc' hpend => exact hset h (fun hr => by rw [hpc'] at hr; cases hr)
  | panic j d h hpc' => exact hset h (fun hr => by rw [hpc'] at hr; cases hr)
  | register j d h hpc' hpend => exact hset h (fun _ => ⟨rfl, rfl⟩)
  | callUnlock j d h hpc' => exact hset h (fun _ => ⟨rfl, rfl⟩)
  | handOver j cap d h hpc' hsend hq hl => cases hsend
  | enqueue j cap d h hpc' hsend hroom => cases hsend
  | deliver k j reply d hl h hroom => exact hset h (fun hr => ⟨rfl, hr⟩)
  | callReturn j k reply rest d h hpc' hdone =>
      exact hset h (fun hr => by rw [hpc'] at hr; cases hr)
  | _ => exact ⟨c, hc, rfl, hpc⟩

/-- **After `Init` alone no registered `Call` makes progress**: in every reachable state in
which a `Call` has registered its tag and not handed its message over, the hand-over is not
enabled, and in every continuation of the run the `Call` is still there and `srv.Send` has
seen no message. -/
theorem initMux_blocked (readTag : Msg → Int64) (s : Mux Msg)
    (h : (initMux readTag).Reachable s) (i : ℕ) (c : MuxCall Msg) (hc : s.calls[i]? = some c)
    (hpc : c.pc.registers = some true) :
    ¬ HandOverEnabled readTag none s ∧
    ∀ s', Relation.ReflTransGen (initMux readTag).step s s' →
      (∃ c', s'.calls[i]? = some c' ∧ c'.args = c.args ∧ c'.pc.registers = some true) ∧
        s'.sent = [] := by
  have hidle := nilSend_reachable h
  constructor
  · rintro ⟨s', hs, -, j, hj⟩
    rw [(nilSend_step hs hidle).1] at hj
    cases hj
  · intro s' hrun
    suffices hkeep : (∃ c', s'.calls[i]? = some c' ∧ c'.args = c.args ∧
        c'.pc.registers = some true) ∧
        (s'.sendLoop = .ranging ∧ s'.queue = [] ∧ s'.sent = []) from ⟨hkeep.1, hkeep.2.2.2⟩
    induction hrun with
    | refl => exact ⟨⟨c, hc, rfl, hpc⟩, hidle⟩
    | tail _ hs ih =>
        obtain ⟨⟨c', hc', hargs, hpc'⟩, hidle'⟩ := ih
        obtain ⟨c'', hc'', hargs', hpc''⟩ := nilSend_registered hs hc' hpc'
        exact ⟨⟨c'', hc'', hargs'.trans hargs, hpc''⟩, nilSend_step hs hidle'⟩

/-- A `Call` with the message 7, registered and before its `m.send <- args`. -/
theorem initMux_registered : ∃ (s : Mux Int64) (c : MuxCall Int64),
    (initMux id).Reachable s ∧ s.calls[0]? = some c ∧ c.pc = .sending ∧
      s.sendLoop = .ranging := by
  have h0 := System.Reachable.of_init (M := initMux (id : Int64 → Int64)) rfl
  have h1 := h0.tail (MuxStep.call 7)
  have h2 := h1.tail (MuxStep.callLock 0 _ rfl rfl rfl)
  have h3 := h2.tail (MuxStep.register 0 _ rfl rfl rfl)
  have h4 := h3.tail (MuxStep.callUnlock 0 _ rfl rfl)
  exact ⟨_, _, h4, rfl, rfl, rfl⟩

theorem initMux_blocked_registered : ∃ (s : Mux Int64) (c : MuxCall Int64),
    (initMux id).Reachable s ∧ s.calls[0]? = some c ∧ c.pc = .sending ∧
      ¬ HandOverEnabled id none s := by
  obtain ⟨s, c, h, hc, hpc, -⟩ := initMux_registered
  exact ⟨s, c, h, hc, hpc, (initMux_blocked id s h 0 c hc (by rw [hpc]; rfl)).1⟩

/-- The hand-over is not always enabled when a `Call` waits for it and `sendLoop` is at its
`range`. -/
theorem initMux_not_progress : ¬ ∀ s : Mux Int64, (initMux id).Reachable s →
    s.sendLoop = .ranging →
    (∃ (i : ℕ) (c : MuxCall Int64), s.calls[i]? = some c ∧ c.pc = .sending) →
    HandOverEnabled id none s := by
  intro hprogress
  obtain ⟨s, c, h, hc, hpc, hl⟩ := initMux_registered
  obtain ⟨s', hs, -, j, hj⟩ := hprogress s h hl ⟨0, c, hc, hpc⟩
  rw [(nilSend_step hs (nilSend_reachable h)).1] at hj
  cases hj

end ComputerScience.Multiplexer
