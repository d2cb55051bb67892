/-
  ComputerScience.Labrpc.Killed
  ─────────────────────────────
  **NO POSITIVE REPLY FROM A KILLED SERVER.**

  A reply is positive from the last `isServerDead` on: before it no message with `ok` is in
  any variable of the request, and a step that makes the request positive is that check with
  the answer "alive", made after the handler has handed its reply over.  How long the reply is
  held back afterwards, and what happens to the server meanwhile, does not matter.

      `ReqStep.positive`       the only step that makes a request positive
      `positive_checked`       a positive request was checked in a state before
      `info_read`              what `processReq` knows was read from the registry
      `network_killed`         both directions, for every call of every run
-/
import ComputerScience.Labrpc.Delivery

namespace ComputerScience.Labrpc

open ComputerScience.Lib

variable {E N S : Type}

/-! ## §1. Positive requests. -/

/-- `processReq` has found the server alive after the handler's return, or is about to send
such a reply. -/
def ProcPc.positive : ProcPc N S → Bool
  | .deciding _ _ => true
  | .replying m => m.ok
  | _ => false

def TimerPc.positive : TimerPc → Bool
  | .armed m | .firing m => m.ok
  | _ => false

def CallerPc.positive : CallerPc → Bool
  | .got m => m.ok
  | .returned reply => reply.isSome
  | _ => false

/-- The call returns true, or has done so. -/
def Request.positive (c : Request E N S) : Bool :=
  c.proc.positive || c.timer.positive || c.caller.positive

theorem ReplyMsg.outcome_isSome (m : ReplyMsg) : m.outcome.isSome = m.ok := by
  unfold ReplyMsg.outcome
  cases m.ok <;> rfl

section Step

variable [DecidableEq S] {rn : Registry E N S} {c c' : Request E N S}

/-- **The last check**: a request becomes positive only when `processReq` has the reply of the
handler and finds the server alive. -/
theorem ReqStep.positive (hs : ReqStep rn c c') (hpos : c'.positive = true) :
    c.positive = true ∨ ∃ t r, c.proc = .finalCheck t (some r) ∧
      rn.isServerDead c.req.endname t.servername t.server = false := by
  unfold Request.positive at hpos ⊢
  cases hs with
  | readAlive t h ht => exact Or.inl (by rw [h]; exact hpos)
  | readDead h ht =>
      have hcaller : c.caller.positive = true := hpos
      exact Or.inl (by rw [hcaller, Bool.or_true])
  | dropRequest t h hrel => exact Or.inl (by rw [h]; exact hpos)
  | execute t h => exact Or.inl (by rw [h]; exact hpos)
  | dispatch server h => exact Or.inl hpos
  | handlerReturn server bytes h => exact Or.inl hpos
  | recvEch t r h hh => exact Or.inl (by rw [h]; exact hpos)
  | timeout t h => exact Or.inl (by rw [h]; exact hpos)
  | checkAlive t h hdead => exact Or.inl (by rw [h]; exact hpos)
  | checkDead t h hdead => exact Or.inl (by rw [h]; exact hpos)
  | drainEch r hd hh => exact Or.inl hpos
  | finalDead t reply h hdead => exact Or.inl (by rw [h]; exact hpos)
  | finalAlive t r h hdead => exact Or.inr ⟨t, r, h, hdead⟩
  | dropReply t r h hrel => exact Or.inl (by rw [h]; rfl)
  | delayReply t r h hlong => exact Or.inl (by rw [h]; rfl)
  | sendReply t r h => exact Or.inl (by rw [h]; rfl)
  | replyProc m h hc =>
      -- the message moves from `processReq` to the caller
      have hmoved : (c.timer.positive || m.ok) = true := hpos
      rw [h, hc]
      exact Or.inl (by simpa [ProcPc.positive, CallerPc.positive, or_comm] using hmoved)
  | fire m h => exact Or.inl (by rw [h]; exact hpos)
  | replyTimer m h hc =>
      rw [h, hc]
      exact Or.inl (by simpa [TimerPc.positive, CallerPc.positive] using hpos)
  | callReturn m h =>
      rw [h]
      simp only [CallerPc.positive, ReplyMsg.outcome_isSome] at hpos ⊢
      exact Or.inl hpos

theorem Registry.alive_iff {endname : E} {servername : N} {server : S} :
    rn.isServerDead endname servername server = false ↔
      rn.enabled endname = true ∧ rn.servers servername = some server := by
  simp [Registry.isServerDead]

theorem ReqMove.positive (hm : ReqMove rn c c') (hpos : c'.positive = true) :
    c.positive = true ∨ ∃ t r, c.proc = .finalCheck t (some r) ∧
      rn.isServerDead c.req.endname t.servername t.server = false := by
  cases hm with
  | accept hc =>
      have htimer : c.timer.positive = true := by
        simpa [Request.positive, ProcPc.positive, CallerPc.positive] using hpos
      exact Or.inl (by rw [Request.positive, htimer, Bool.or_true, Bool.true_or])
  | abandon hc =>
      have hrest : (c.proc.positive || c.timer.positive) = true := by
        simpa [Request.positive, CallerPc.positive] using hpos
      exact Or.inl (by rw [Request.positive, hrest, Bool.true_or])
  | spawn hp =>
      unfold Request.positive at hpos ⊢
      exact Or.inl (by rw [hp]; exact hpos)
  | own hs => exact hs.positive hpos

/-- The request itself does not change. -/
theorem ReqMove.req (hm : ReqMove rn c c') : c'.req = c.req := by
  cases hm with
  | accept hc => rfl
  | abandon hc => rfl
  | spawn hp => rfl
  | own hs => cases hs <;> rfl

/-- What `processReq` has read, and when. -/
theorem Request.Ok.info_move (hok : c.Ok) (hm : ReqMove rn c c') :
    c'.info = c.info ∨
      (c.proc = .reading ∧ c.info = none ∧ c'.info = some (rn.readEndnameInfo c.req.endname)) := by
  cases hm with
  | accept hc => exact Or.inl rfl
  | abandon hc => exact Or.inl rfl
  | spawn hp => exact Or.inl rfl
  | own hs =>
      cases hs with
      | readAlive t h ht => exact Or.inr ⟨h, (hok.at h).2.2, rfl⟩
      | readDead h ht => exact Or.inr ⟨h, (hok.at h).2.2, rfl⟩
      | _ => exact Or.inl rfl

end Step

/-! ## §2. Requests without a server. -/

/-- The end is disabled, unconnected, or its server is not registered. -/
def EndInfo.Unreachable (info : EndInfo N S) : Prop :=
  info.enabled = false ∨ info.servername = none ∨ info.server = none

theorem EndInfo.target_eq_some {info : EndInfo N S} {t : Target N S}
    (h : info.target = some t) : info.enabled = true ∧ info.servername = some t.servername ∧
      info.server = some t.server := by
  obtain ⟨enabled, servername, server, reliable, longreordering⟩ := info
  cases enabled with
  | false => cases h
  | true =>
      cases servername with
      | none => cases h
      | some name =>
          cases server with
          | none => cases h
          | some server =>
              cases h
              exact ⟨rfl, rfl, rfl⟩

theorem EndInfo.Unreachable.target_ne {info : EndInfo N S} (h : info.Unreachable)
    (t : Target N S) : info.target ≠ some t := by
  intro ht
  obtain ⟨hen, hname, hserver⟩ := EndInfo.target_eq_some ht
  rcases h with h | h | h
  · rw [hen] at h
    cases h
  · rw [hname] at h
    cases h
  · rw [hserver] at h
    cases h

section Unreachable

variable {c : Request E N S} {info : EndInfo N S}

theorem EndInfo.Unreachable.not_reads (h : info.Unreachable) (hinfo : c.info = some info)
    (t : Target N S) : ¬ c.Reads t := by
  rintro ⟨info', hinfo', ht⟩
  rw [hinfo] at hinfo'
  cases hinfo'
  exact h.target_ne t ht

/-- Without a server no handler is started. -/
theorem Request.Ok.quiet (hok : c.Ok) (hinfo : c.info = some info) (h : info.Unreachable) :
    c.Quiet := by
  rcases hok.phase with hq | ⟨t, hread, -⟩
  · exact hq
  · exact absurd hread (h.not_reads hinfo t)

/-- Without a server every message is a failure. -/
theorem Request.Settled.failed {m : ReplyMsg} (hset : c.Settled m) (hinfo : c.info = some info)
    (h : info.Unreachable) : m.outcome = none := by
  have hm : m.ok = false := by
    rcases hset with ⟨hm, -⟩ | ⟨hm, -⟩ | ⟨t, r, hread, -⟩
    · exact hm
    · exact hm
    · exact absurd hread (h.not_reads hinfo t)
  rw [ReplyMsg.outcome, hm]
  rfl

variable [DecidableEq S] {rn : Registry E N S}

/-- A message that the timer or the caller has is returned. -/
theorem Request.Sent.run {m : ReplyMsg} (hsent : c.Sent m) :
    ∃ c', Relation.ReflTransGen (ReqStep rn) c c' ∧ c'.caller = .returned m.outcome := by
  rcases hsent with ⟨ht | ht, hc, -⟩ | ⟨-, -, hc | hc⟩
  · exact ⟨_, .tail (.tail (.single (.fire m ht)) (.replyTimer m rfl hc)) (.callReturn m rfl), rfl⟩
  · exact ⟨_, .tail (.single (.replyTimer m ht hc)) (.callReturn m rfl), rfl⟩
  · exact ⟨_, .single (.callReturn m hc), rfl⟩
  · exact ⟨c, .refl, hc⟩

/-- Without a server the call can return, and returns false. -/
theorem Request.Ok.returns_false (hok : c.Ok) (hinfo : c.info = some info)
    (h : info.Unreachable) :
    ∃ c', Relation.ReflTransGen (ReqStep rn) c c' ∧ c'.caller = .returned none := by
  have hreads := h.not_reads hinfo
  cases hp : c.proc with
  | unaccepted => rw [(hok.at hp).2.2.2.2] at hinfo; cases hinfo
  | accepted => rw [(hok.at hp).2.2] at hinfo; cases hinfo
  | reading => rw [(hok.at hp).2.2] at hinfo; cases hinfo
  | delaying t => exact absurd (hok.at hp).2.2 (hreads t)
  | selecting t => exact absurd (hok.at hp).2.2.2 (hreads t)
  | checking t => exact absurd (hok.at hp).2.2.2 (hreads t)
  | finalCheck t reply =>
      cases reply with
      | none => exact absurd (hok.at hp).2.2 (hreads t)
      | some r => exact absurd (hok.at hp).2.2 (hreads t)
  | deciding t r => exact absurd (hok.at hp).2.2 (hreads t)
  | replying m =>
      obtain ⟨hset, howes⟩ := hok.at hp
      refine ⟨_, .tail (.single (.replyProc m hp howes.caller)) (.callReturn m rfl), ?_⟩
      exact congrArg CallerPc.returned (hset.failed hinfo h)
  | exited =>
      obtain ⟨m, hset, hsent⟩ := hok.at hp
      rw [← hset.failed hinfo h]
      exact hsent.run

end Unreachable

/-! ## §3. Moments of a run. -/

section Network

variable [DecidableEq E] [DecidableEq N] [DecidableEq S] {s s' mid : Network E N S}

/-- The state `mid` was passed on the way to `s`. -/
def Before (mid s : Network E N S) : Prop :=
  (makeNetwork E N S).Reachable mid ∧ Relation.ReflTransGen (makeNetwork E N S).step mid s

theorem Before.tail (h : Before mid s) (hstep : (makeNetwork E N S).step s s') : Before mid s' :=
  ⟨h.1, h.2.tail hstep⟩

/-- **What `processReq` knows is what it has read** from the registry of one moment. -/
theorem info_read (hs : (makeNetwork E N S).Reachable s) {i : ℕ} {c : Request E N S}
    (hi : s.reqs[i]? = some c) {info : EndInfo N S} (hinfo : c.info = some info) :
    ∃ mid d, Before mid s ∧ mid.reqs[i]? = some d ∧ d.proc = .reading ∧
      info = mid.rn.readEndnameInfo c.req.endname := by
  refine reachable_request (P := fun s i c => ∀ info, c.info = some info →
    ∃ mid d, Before mid s ∧ mid.reqs[i]? = some d ∧ d.proc = .reading ∧
      info = mid.rn.readEndnameInfo c.req.endname) ?_ ?_ ?_ hs i c hi info hinfo
  · intro s i req info h
    cases h
  · intro s s' i c c' hs hstep hi hm ih info h
    rw [hm.req]
    rcases (reachable_ok hs hi).info_move hm with hsame | ⟨hp, -, hread⟩
    · obtain ⟨mid, d, hb, hd⟩ := ih info (hsame ▸ h)
      exact ⟨mid, d, hb.tail hstep, hd⟩
    · rw [hread] at h
      cases h
      exact ⟨s, c, ⟨hs, .single hstep⟩, hi, hp, rfl⟩
  · intro s s' i c hstep ih info h
    obtain ⟨mid, d, hb, hd⟩ := ih info h
    exact ⟨mid, d, hb.tail hstep, hd⟩

/-- What `processReq` has read stays with the request. -/
theorem info_kept (hs : (makeNetwork E N S).Reachable s) {i : ℕ} {c : Request E N S}
    (hi : s.reqs[i]? = some c) {info : EndInfo N S} (hinfo : c.info = some info)
    (hrun : Relation.ReflTransGen (makeNetwork E N S).step s s') :
    (makeNetwork E N S).Reachable s' ∧ ∃ c', s'.reqs[i]? = some c' ∧ c'.info = some info := by
  induction hrun with
  | refl => exact ⟨hs, c, hi, hinfo⟩
  | tail _ hstep ih =>
      obtain ⟨hreach, d, hd, hdinfo⟩ := ih
      refine ⟨hreach.tail hstep, ?_⟩
      rcases hstep.2.reqs_cases with heq | ⟨req, heq⟩ | ⟨j, e, e', hj, hm, heq⟩
      · exact ⟨d, heq ▸ hd, hdinfo⟩
      · have hlt := (List.getElem?_eq_some_iff.mp hd).1
        exact ⟨d, by rw [heq, List.getElem?_append_left hlt, hd], hdinfo⟩
      · rw [heq]
        rcases getElem?_set_of_some e' hj hd with ⟨-, rfl, hget⟩ | ⟨-, hget⟩
        · rcases (reachable_ok hreach hd).info_move hm with hsame | ⟨-, hnone, -⟩
          · exact ⟨e', hget, hsame.trans hdinfo⟩
          · rw [hnone] at hdinfo
            cases hdinfo
        · exact ⟨d, hget, hdinfo⟩

/-- The moment of the last check of request `i`: its handler has finished, its end is enabled
and the server that ran it is registered. -/
def CheckedAlive (mid : Network E N S) (i : ℕ) (c : Request E N S) (t : Target N S) : Prop :=
  (∃ d r, mid.reqs[i]? = some d ∧ d.Finished t.server r) ∧
    mid.rn.enabled c.req.endname = true ∧ mid.rn.servers t.servername = some t.server

/-- **A positive request was checked** in a state before. -/
theorem positive_checked (hs : (makeNetwork E N S).Reachable s) {i : ℕ} {c : Request E N S}
    (hi : s.reqs[i]? = some c) (hpos : c.positive = true) :
    ∃ t, c.Reads t ∧ ∃ mid, Before mid s ∧ CheckedAlive mid i c t := by
  refine reachable_request (P := fun s i c => c.positive = true →
    ∃ t, c.Reads t ∧ ∃ mid, Before mid s ∧ CheckedAlive mid i c t) ?_ ?_ ?_ hs i c hi hpos
  · intro s i req h
    cases h
  · intro s s' i c c' hs hstep hi hm ih hpos
    have hok := reachable_ok hs hi
    have hreads : ∀ t, c.Reads t → c'.Reads t := by
      intro t hread
      rcases hok.info_move hm with hsame | ⟨-, hnone, -⟩
      · exact hread.same hsame
      · obtain ⟨info, hinfo, -⟩ := hread
        rw [hnone] at hinfo
        cases hinfo
    have hkeep : c.positive = true →
        ∃ t, c'.Reads t ∧ ∃ mid, Before mid s' ∧ CheckedAlive mid i c' t := by
      intro h
      obtain ⟨t, hread, mid, hb, hd, ha⟩ := ih h
      exact ⟨t, hreads t hread, mid, hb.tail hstep, hd, by rw [hm.req]; exact ha⟩
    rcases hm.positive hpos with h | ⟨t, r, hp, halive⟩
    · exact hkeep h
    · obtain ⟨hf, -, hread⟩ := hok.at hp
      refine ⟨t, hreads t hread, s, ⟨hs, .single hstep⟩, ⟨c, r, hi, hf⟩, ?_⟩
      rw [hm.req]
      exact Registry.alive_iff.mp halive
  · intro s s' i c hstep ih hpos
    obtain ⟨t, hread, mid, hb, hc⟩ := ih hpos
    exact ⟨t, hread, mid, hb.tail hstep, hc⟩

/-! ## §4. Killed servers. -/

/-- **Killed servers.**  In every state of every run, for every call: if it has returned true
there was a moment, after its handler run had finished, at which its end was enabled and the
server object that ran the handler was registered under the name that `processReq` had read;
if `processReq` has read that the end is disabled, unconnected or without a registered server,
then in every later state the handler has not run, the call has not returned true, and it can
return false.  What `processReq` has read is the registry's entry at a moment of the run. -/
theorem network_killed (hs : (makeNetwork E N S).Reachable s) {i : ℕ} {c : Request E N S}
    (hi : s.reqs[i]? = some c) :
    (∀ info, c.info = some info → ∃ mid d, Before mid s ∧ mid.reqs[i]? = some d ∧
      d.proc = .reading ∧ info = mid.rn.readEndnameInfo c.req.endname) ∧
    (∀ bytes, c.caller = .returned (some bytes) →
      ∃ info name server, c.info = some info ∧ info.servername = some name ∧
        c.runs = [server] ∧ ∃ mid d, Before mid s ∧ mid.reqs[i]? = some d ∧
          d.handler = .exited ∧ d.runs = [server] ∧
          mid.rn.enabled c.req.endname = true ∧ mid.rn.servers name = some server) ∧
    (∀ info, c.info = some info → info.Unreachable →
      ∀ s', Relation.ReflTransGen (makeNetwork E N S).step s s' →
        ∃ c', s'.reqs[i]? = some c' ∧ c'.runs = [] ∧
          (∀ reply, c'.caller = .returned reply → reply = none) ∧
          (s'.dead = false → ∃ s'' c'', Relation.ReflTransGen (makeNetwork E N S).step s' s'' ∧
            s''.reqs[i]? = some c'' ∧ c''.caller = .returned none)) := by
  have hok := reachable_ok hs hi
  refine ⟨fun info hinfo => info_read hs hi hinfo, ?_, ?_⟩
  · intro bytes hc
    have hpos : c.positive = true := by
      rw [Request.positive, hc]
      exact Bool.or_true _
    obtain ⟨t, ⟨info, hinfo, ht⟩, mid, hb, ⟨d, r, hd, hf⟩, hen, hserv⟩ :=
      positive_checked hs hi hpos
    have hname := (EndInfo.target_eq_some ht).2.1
    have hruns : c.runs = [t.server] := by
      obtain ⟨-, t', hread', hf'⟩ := hok.returned_true hc
      rw [hf'.runs, hread'.unique ⟨info, hinfo, ht⟩]
    exact ⟨info, t.servername, t.server, hinfo, hname, hruns, mid, d, hb, hd, hf.handler,
      hf.runs, hen, hserv⟩
  · intro info hinfo hun s' hrun
    obtain ⟨hs', c', hi', hinfo'⟩ := info_kept hs hi hinfo hrun
    have hok' := reachable_ok hs' hi'
    refine ⟨c', hi', (hok'.quiet hinfo' hun).runs, ?_, ?_⟩
    · intro reply hc
      rcases hok'.returned hc with ⟨-, hnone⟩ | ⟨-, m, hout, -, hset⟩
      · exact hnone
      · exact hout.trans (hset.failed hinfo' hun)
    · intro hdead
      obtain ⟨c'', hrun', hc''⟩ := hok'.returns_false hinfo' hun
      have hlt := (List.getElem?_eq_some_iff.mp hi').1
      exact ⟨_, c'', request_run hdead hi' hrun', List.getElem?_set_self hlt, hc''⟩

end Network

/-- The request of an end that is not enabled, with the timer of the simulated timeout. -/
def pingLost : Request ℕ ℕ ℕ :=
  ⟨pingReq, .waiting, .exited, .unstarted, .unstarted, .armed .failed,
    some ⟨false, none, none, true, false⟩, [], [], []⟩

theorem pingLost_reachable :
    (makeNetwork ℕ ℕ ℕ).Reachable
      ⟨NetOp.apply .make (.makeEnd 0), [pingLost], .selecting, false, false⟩ := by
  have h0 : (makeNetwork ℕ ℕ ℕ).Reachable ⟨.make, [], .selecting, false, false⟩ :=
    System.Reachable.of_init rfl
  have h1 := (h0.tail ⟨rfl, .op (.makeEnd 0) rfl⟩).tail ⟨rfl, .call pingReq rfl⟩
  have h2 := (h1.tail ⟨rfl, .accept 0 _ rfl rfl rfl⟩).tail ⟨rfl, .spawn 0 _ rfl rfl rfl⟩
  exact h2.tail ⟨rfl, .request 0 _ _ rfl (.readDead rfl rfl)⟩

theorem network_killed_ping :
    (∃ mid d, Before mid ⟨pingRegistry, [pingReturned], .selecting, false, false⟩ ∧
      mid.reqs[0]? = some d ∧ d.runs = [9] ∧ mid.rn.servers 3 = some 9) ∧
    pingLost.runs = [] := by
  have hret := network_killed pingReturned_reachable (i := 0) (c := pingReturned) rfl
  have hlost := network_killed pingLost_reachable (i := 0) (c := pingLost) rfl
  obtain ⟨info, name, server, hinfo, hname, hruns, mid, d, hb, hd, -, hdruns, -, hserv⟩ :=
    hret.2.1 [7] rfl
  cases hinfo
  cases hname
  cases hruns
  obtain ⟨c', hc', hruns', -⟩ := hlost.2.2 _ rfl (Or.inl rfl) _ .refl
  cases hc'
  exact ⟨⟨mid, d, hb, hd, hdruns, hserv⟩, hruns'⟩

end ComputerScience.Labrpc
