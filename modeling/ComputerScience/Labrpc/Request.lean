/-
  ComputerScience.Labrpc.Request
  ──────────────────────────────
  **THE INVARIANT OF ONE REQUEST.**

  `processReq` has six exits that reply and two timers; which of its goroutines are alive,
  and who owes the caller its message, is a function of where `processReq` is
  (`Request.Ok`).  All goroutines of a request share nothing with other requests, so one step
  concerns one request and the registry it reads.

      `Owes`      the caller waits and nothing was sent yet
      `Active`    the handler was started and has not handed its reply over
      `Drained`   as `Active` with a goroutine at `<-ech`, or both have left
      `Finished`  the handler has handed its reply over to `processReq`
-/
import ComputerScience.Labrpc.Network

namespace ComputerScience.Labrpc

open ComputerScience.Lib

variable {E N S : Type}

/-! ## §1. What holds of one request. -/

/-- No handler was started. -/
structure Request.Quiet (c : Request E N S) : Prop where
  handler : c.handler = .unstarted
  drain : c.drain = .unstarted
  runs : c.runs = []
  produced : c.produced = []

/-- The caller waits for its message, and no timer has it. -/
structure Request.Owes (c : Request E N S) : Prop where
  caller : c.caller = .waiting
  timer : c.timer = .unset
  messages : c.messages = []

/-- `processReq` has found its server. -/
def Request.Reads (c : Request E N S) (t : Target N S) : Prop :=
  ∃ info, c.info = some info ∧ info.target = some t

/-- The handler was started on `server` and has not handed its reply over. -/
def Request.Active (c : Request E N S) (server : S) : Prop :=
  match c.handler with
  | .started s => s = server ∧ c.runs = [] ∧ c.produced = []
  | .running s => s = server ∧ c.runs = [server] ∧ c.produced = []
  | .sending r => c.runs = [server] ∧ r.ok = true ∧ c.produced = [r.reply]
  | .unstarted | .exited => False

/-- The handler's reply goes, or has gone, to the goroutine that drains `ech`. -/
def Request.Drained (c : Request E N S) (server : S) : Prop :=
  (c.Active server ∧ c.drain = .receiving) ∨
    (c.handler = .exited ∧ c.drain = .exited ∧ c.runs = [server] ∧ ∃ b, c.produced = [b])

/-- The handler ran on `server` and has handed its reply over to `processReq`. -/
structure Request.Finished (c : Request E N S) (server : S) (r : ReplyMsg) : Prop where
  handler : c.handler = .exited
  drain : c.drain = .unstarted
  runs : c.runs = [server]
  ok : r.ok = true
  produced : c.produced = [r.reply]

/-- What is known of the message `m` of the request: a failure, or the reply of its own
handler run. -/
def Request.Settled (c : Request E N S) (m : ReplyMsg) : Prop :=
  (m.ok = false ∧ c.Quiet) ∨
  (m.ok = false ∧ ∃ t, c.Reads t ∧ c.Drained t.server) ∨
  (∃ t r, c.Reads t ∧ c.Finished t.server r ∧ (m.ok = true → m = r))

/-- `processReq` has left: the timer has the message, or the caller has got it. -/
def Request.Sent (c : Request E N S) (m : ReplyMsg) : Prop :=
  ((c.timer = .armed m ∨ c.timer = .firing m) ∧ c.caller = .waiting ∧ c.messages = []) ∨
  ((c.timer = .unset ∨ c.timer = .exited) ∧ c.messages = [m] ∧
    (c.caller = .got m ∨ c.caller = .returned m.outcome))

/-- What holds of the request while `processReq` is at the given point. -/
def Request.OkAt (c : Request E N S) : ProcPc N S → Prop
  | .unaccepted => c.Quiet ∧ (c.caller = .sending ∨ c.caller = .returned none) ∧
      c.timer = .unset ∧ c.messages = [] ∧ c.info = none
  | .accepted | .reading => c.Quiet ∧ c.Owes ∧ c.info = none
  | .delaying t => c.Quiet ∧ c.Owes ∧ c.Reads t
  | .selecting t | .checking t => c.Active t.server ∧ c.drain = .unstarted ∧ c.Owes ∧ c.Reads t
  | .finalCheck t none => c.Drained t.server ∧ c.Owes ∧ c.Reads t
  | .finalCheck t (some r) | .deciding t r => c.Finished t.server r ∧ c.Owes ∧ c.Reads t
  | .replying m => c.Settled m ∧ c.Owes
  | .exited => ∃ m, c.Settled m ∧ c.Sent m

/-- **The invariant of a request**, by where `processReq` is. -/
def Request.Ok (c : Request E N S) : Prop := c.OkAt c.proc

theorem Request.start_ok (req : ReqMsg E) : (Request.start req : Request E N S).Ok :=
  ⟨⟨rfl, rfl, rfl, rfl⟩, Or.inl rfl, rfl, rfl, rfl⟩

/-! ## §2. Reading the invariant. -/

section Read

variable {c : Request E N S}

theorem Request.Ok.at (hok : c.Ok) {p : ProcPc N S} (h : c.proc = p) : c.OkAt p := h ▸ hok

/-- Inside of `processReq` the caller waits and has no message yet. -/
theorem Request.Ok.owes (hok : c.Ok) (hun : c.proc ≠ .unaccepted) (hex : c.proc ≠ .exited) :
    c.Owes := by
  cases hp : c.proc with
  | unaccepted => exact absurd hp hun
  | accepted => exact (hok.at hp).2.1
  | reading => exact (hok.at hp).2.1
  | delaying t => exact (hok.at hp).2.1
  | selecting t => exact (hok.at hp).2.2.1
  | checking t => exact (hok.at hp).2.2.1
  | finalCheck t reply =>
      cases reply with
      | none => exact (hok.at hp).2.1
      | some r => exact (hok.at hp).2.1
  | deciding t r => exact (hok.at hp).2.1
  | replying m => exact (hok.at hp).2
  | exited => exact absurd hp hex

/-- A set timer has the message that the caller waits for. -/
theorem Request.Ok.timer (hok : c.Ok) {m : ReplyMsg}
    (ht : c.timer = .armed m ∨ c.timer = .firing m) :
    c.proc = .exited ∧ c.caller = .waiting ∧ c.messages = [] ∧ c.Settled m := by
  have hset : c.timer ≠ .unset ∧ c.timer ≠ .exited := by
    rcases ht with ht | ht <;> rw [ht] <;> exact ⟨nofun, nofun⟩
  have hun : c.proc ≠ .unaccepted := fun hp => hset.1 (hok.at hp).2.2.1
  have hex : c.proc = .exited := by
    by_contra hex
    exact hset.1 (hok.owes hun hex).timer
  obtain ⟨m', hm', hsent⟩ := hok.at hex
  rcases hsent with ⟨ht', hcaller, hmsg⟩ | ⟨ht', -⟩
  · have hm : m' = m := by
      rcases ht with ht | ht <;> rcases ht' with ht' | ht' <;> rw [ht] at ht' <;> cases ht' <;> rfl
    exact ⟨hex, hcaller, hmsg, hm ▸ hm'⟩
  · exact absurd ht' (not_or.mpr hset)

/-- **Where the caller is**: not taken yet or abandoned, waiting, or it has the only message
that was sent. -/
theorem Request.Ok.caller_cases (hok : c.Ok) :
    (c.proc = .unaccepted ∧ (c.caller = .sending ∨ c.caller = .returned none)) ∨
    c.caller = .waiting ∨
    (c.proc = .exited ∧ ∃ m, (c.timer = .unset ∨ c.timer = .exited) ∧ c.messages = [m] ∧
      c.Settled m ∧ (c.caller = .got m ∨ c.caller = .returned m.outcome)) := by
  by_cases hun : c.proc = .unaccepted
  · exact Or.inl ⟨hun, (hok.at hun).2.1⟩
  · by_cases hex : c.proc = .exited
    · obtain ⟨m, hset, hsent⟩ := hok.at hex
      rcases hsent with ⟨-, hcaller, -⟩ | ⟨ht, hmsg, hcaller⟩
      · exact Or.inr (Or.inl hcaller)
      · exact Or.inr (Or.inr ⟨hex, m, ht, hmsg, hset, hcaller⟩)
    · exact Or.inr (Or.inl (hok.owes hun hex).caller)

/-- A caller that has a message has the only one that was sent. -/
theorem Request.Ok.got (hok : c.Ok) {m : ReplyMsg} (hc : c.caller = .got m) :
    c.proc = .exited ∧ (c.timer = .unset ∨ c.timer = .exited) ∧ c.messages = [m] ∧
      c.Settled m := by
  have hcases := hok.caller_cases
  rw [hc] at hcases
  rcases hcases with ⟨-, h | h⟩ | h | ⟨hex, m', ht, hmsg, hset, h | h⟩ <;> cases h
  exact ⟨hex, ht, hmsg, hset⟩

/-- A call that returned has the outcome of the only message, or was never accepted. -/
theorem Request.Ok.returned (hok : c.Ok) {reply : Option (List UInt8)}
    (hc : c.caller = .returned reply) :
    (c.proc = .unaccepted ∧ reply = none) ∨
      (c.proc = .exited ∧ ∃ m, reply = m.outcome ∧ c.messages = [m] ∧ c.Settled m) := by
  have hcases := hok.caller_cases
  rw [hc] at hcases
  rcases hcases with ⟨hun, h | h⟩ | h | ⟨hex, m, -, hmsg, hset, h | h⟩ <;> cases h
  · exact Or.inl ⟨hun, rfl⟩
  · exact Or.inr ⟨hex, m, rfl, hmsg, hset⟩

/-- A call that was not taken yet has started nothing. -/
theorem Request.Ok.sending (hok : c.Ok) (hc : c.caller = .sending) : c.proc = .unaccepted := by
  have hcases := hok.caller_cases
  rw [hc] at hcases
  rcases hcases with ⟨hun, -⟩ | h | ⟨-, m, -, -, -, h | h⟩
  · exact hun
  · cases h
  · cases h
  · cases h

/-- **The phases of a request**: no handler, a handler that `processReq` waits for, one that
it has given up, one that has handed its reply over. -/
theorem Request.Ok.phase (hok : c.Ok) :
    c.Quiet ∨ ∃ t, c.Reads t ∧
      ((c.Active t.server ∧ (c.proc = .selecting t ∨ c.proc = .checking t)) ∨
        c.Drained t.server ∨ ∃ r, c.Finished t.server r) := by
  have hsettled : ∀ m, c.Settled m → c.Quiet ∨ ∃ t, c.Reads t ∧
      ((c.Active t.server ∧ (c.proc = .selecting t ∨ c.proc = .checking t)) ∨
        c.Drained t.server ∨ ∃ r, c.Finished t.server r) := by
    intro m hs
    rcases hs with ⟨-, hq⟩ | ⟨-, t, hread, hd⟩ | ⟨t, r, hread, hf, -⟩
    · exact Or.inl hq
    · exact Or.inr ⟨t, hread, Or.inr (Or.inl hd)⟩
    · exact Or.inr ⟨t, hread, Or.inr (Or.inr ⟨r, hf⟩)⟩
  cases hp : c.proc with
  | unaccepted => exact Or.inl (hok.at hp).1
  | accepted => exact Or.inl (hok.at hp).1
  | reading => exact Or.inl (hok.at hp).1
  | delaying t => exact Or.inl (hok.at hp).1
  | selecting t =>
      obtain ⟨ha, -, -, hread⟩ := hok.at hp
      exact Or.inr ⟨t, hread, Or.inl ⟨ha, Or.inl rfl⟩⟩
  | checking t =>
      obtain ⟨ha, -, -, hread⟩ := hok.at hp
      exact Or.inr ⟨t, hread, Or.inl ⟨ha, Or.inr rfl⟩⟩
  | finalCheck t reply =>
      cases reply with
      | none =>
          obtain ⟨hd, -, hread⟩ := hok.at hp
          exact Or.inr ⟨t, hread, Or.inr (Or.inl hd)⟩
      | some r =>
          obtain ⟨hf, -, hread⟩ := hok.at hp
          exact Or.inr ⟨t, hread, Or.inr (Or.inr ⟨r, hf⟩)⟩
  | deciding t r =>
      obtain ⟨hf, -, hread⟩ := hok.at hp
      exact Or.inr ⟨t, hread, Or.inr (Or.inr ⟨r, hf⟩)⟩
  | replying m => exact hp ▸ hsettled m (hok.at hp).1
  | exited =>
      obtain ⟨m, hset, -⟩ := hok.at hp
      exact hp ▸ hsettled m hset

/-- A handler that hands its reply over has run once and has produced it. -/
theorem Request.Active.sending {server : S} {r : ReplyMsg} (ha : c.Active server)
    (h : c.handler = .sending r) : c.runs = [server] ∧ r.ok = true ∧ c.produced = [r.reply] := by
  unfold Request.Active at ha
  rw [h] at ha
  exact ha

theorem Request.Active.runs_le {server : S} (ha : c.Active server) : c.runs.length ≤ 1 := by
  unfold Request.Active at ha
  cases hh : c.handler with
  | started s =>
      rw [hh] at ha
      simp [ha.2.1]
  | running s =>
      rw [hh] at ha
      simp [ha.2.1]
  | sending r =>
      rw [hh] at ha
      simp [ha.1]
  | unstarted =>
      rw [hh] at ha
      exact ha.elim
  | exited =>
      rw [hh] at ha
      exact ha.elim

/-- The handler runs at most once. -/
theorem Request.Ok.runs_le (hok : c.Ok) : c.runs.length ≤ 1 := by
  rcases hok.phase with hq | ⟨t, -, ⟨ha, -⟩ | (⟨ha, -⟩ | ⟨-, -, hr, -⟩) | ⟨r, hf⟩⟩
  · simp [hq.runs]
  · exact ha.runs_le
  · exact ha.runs_le
  · simp [hr]
  · simp [hf.runs]

/-- At most one message is sent on `replyCh`. -/
theorem Request.Ok.messages_le (hok : c.Ok) : c.messages.length ≤ 1 := by
  by_cases hun : c.proc = .unaccepted
  · simp [(hok.at hun).2.2.2.1]
  · by_cases hex : c.proc = .exited
    · obtain ⟨m, -, hsent⟩ := hok.at hex
      rcases hsent with ⟨-, -, hmsg⟩ | ⟨-, hmsg, -⟩ <;> simp [hmsg]
    · simp [(hok.owes hun hex).messages]

/-- What a call that returned true has decoded. -/
theorem Request.Ok.returned_true (hok : c.Ok) {bytes : List UInt8}
    (hc : c.caller = .returned (some bytes)) :
    c.messages = [⟨true, bytes⟩] ∧ ∃ t, c.Reads t ∧ c.Finished t.server ⟨true, bytes⟩ := by
  rcases hok.returned hc with ⟨-, h⟩ | ⟨-, m, hout, hmsg, hset⟩
  · cases h
  · obtain ⟨ok, reply⟩ := m
    cases ok with
    | false => cases hout
    | true =>
        cases hout
        refine ⟨hmsg, ?_⟩
        rcases hset with ⟨h, -⟩ | ⟨h, -⟩ | ⟨t, r, hread, hf, hm⟩
        · cases h
        · cases h
        · cases hm rfl
          exact ⟨t, hread, hf⟩

/-- A goroutine is at `<-ech`, or in the loop that comes back to it or leaves a drain. -/
def Request.Receiving (c : Request E N S) : Prop :=
  (∃ t, c.proc = .selecting t ∨ c.proc = .checking t) ∨ c.drain = .receiving

theorem Request.Ok.receiving (hok : c.Ok) {r : ReplyMsg} (hh : c.handler = .sending r) :
    c.Receiving := by
  rcases hok.phase with hq | ⟨t, -, ⟨-, hp⟩ | (⟨-, hd⟩ | ⟨he, -⟩) | ⟨r, hf⟩⟩
  · exact absurd (hh.symm.trans hq.handler) nofun
  · exact Or.inl ⟨t, hp⟩
  · exact Or.inr hd
  · exact absurd (hh.symm.trans he) nofun
  · exact absurd (hh.symm.trans hf.handler) nofun

/-- A goroutine that sends on `replyCh` meets its caller. -/
theorem Request.Ok.replying (hok : c.Ok) {m : ReplyMsg}
    (h : c.proc = .replying m ∨ c.timer = .firing m) : c.caller = .waiting := by
  rcases h with hp | ht
  · exact (hok.at hp).2.caller
  · exact (hok.timer (Or.inr ht)).2.1

end Read

/-! ## §3. The handler and the drain. -/

/-- What a step of the handler or of the drain leaves alone. -/
structure SameReply (c c' : Request E N S) : Prop where
  caller : c'.caller = c.caller
  proc : c'.proc = c.proc
  timer : c'.timer = c.timer
  info : c'.info = c.info
  messages : c'.messages = c.messages

theorem Request.Owes.same {c c' : Request E N S} (hc : c.Owes) (hcaller : c'.caller = c.caller)
    (htimer : c'.timer = c.timer) (hmsg : c'.messages = c.messages) : c'.Owes :=
  ⟨hcaller.trans hc.caller, htimer.trans hc.timer, hmsg.trans hc.messages⟩

theorem Request.Reads.same {c c' : Request E N S} {t : Target N S} (hc : c.Reads t)
    (hinfo : c'.info = c.info) : c'.Reads t := by
  obtain ⟨info, hsome, ht⟩ := hc
  exact ⟨info, hinfo.trans hsome, ht⟩

theorem Request.Reads.unique {c : Request E N S} {t t' : Target N S} (h : c.Reads t)
    (h' : c.Reads t') : t = t' := by
  obtain ⟨info, hinfo, ht⟩ := h
  obtain ⟨info', hinfo', ht'⟩ := h'
  rw [hinfo] at hinfo'
  cases hinfo'
  exact Option.some.inj (ht.symm.trans ht')

theorem SameReply.owes {c c' : Request E N S} (h : SameReply c c') (hc : c.Owes) : c'.Owes :=
  hc.same h.caller h.timer h.messages

theorem SameReply.reads {c c' : Request E N S} (h : SameReply c c') {t : Target N S}
    (hc : c.Reads t) : c'.Reads t :=
  hc.same h.info

theorem SameReply.sent {c c' : Request E N S} (h : SameReply c c') {m : ReplyMsg}
    (hc : c.Sent m) : c'.Sent m := by
  unfold Request.Sent at hc ⊢
  rw [h.timer, h.caller, h.messages]
  exact hc

/-- **A step of the handler or of the drain**: the handler is active, and `hactive` and
`hdrained` say what the step makes of it. -/
theorem Request.Ok.handlerStep {c c' : Request E N S} (hok : c.Ok) (h : SameReply c c')
    (hhandler : c.handler ≠ .unstarted ∧ c.handler ≠ .exited)
    (hactive : ∀ server, c.Active server → c.drain = .unstarted →
      c'.Active server ∧ c'.drain = .unstarted)
    (hdrained : ∀ server, c.Active server → c.drain = .receiving → c'.Drained server) :
    c'.Ok := by
  have hquiet : ¬ c.Quiet := fun hq => hhandler.1 hq.handler
  have hfin : ∀ {server r}, ¬ c.Finished server r := fun hf => hhandler.2 hf.handler
  -- only the first half of `Drained` is left
  have hdr : ∀ {server}, c.Drained server → c'.Drained server := by
    intro server hd
    rcases hd with ⟨ha, hr⟩ | ⟨he, -⟩
    · exact hdrained server ha hr
    · exact absurd he hhandler.2
  have hsettled : ∀ {m}, c.Settled m → c'.Settled m := by
    intro m hs
    rcases hs with ⟨-, hq⟩ | ⟨hm, t, hread, hd⟩ | ⟨t, r, -, hf, -⟩
    · exact absurd hq hquiet
    · exact Or.inr (Or.inl ⟨hm, t, h.reads hread, hdr hd⟩)
    · exact absurd hf hfin
  show c'.OkAt c'.proc
  rw [h.proc]
  cases hp : c.proc with
  | unaccepted => exact absurd (hok.at hp).1 hquiet
  | accepted => exact absurd (hok.at hp).1 hquiet
  | reading => exact absurd (hok.at hp).1 hquiet
  | delaying t => exact absurd (hok.at hp).1 hquiet
  | selecting t =>
      obtain ⟨ha, hd, howes, hread⟩ := hok.at hp
      obtain ⟨ha', hd'⟩ := hactive t.server ha hd
      exact ⟨ha', hd', h.owes howes, h.reads hread⟩
  | checking t =>
      obtain ⟨ha, hd, howes, hread⟩ := hok.at hp
      obtain ⟨ha', hd'⟩ := hactive t.server ha hd
      exact ⟨ha', hd', h.owes howes, h.reads hread⟩
  | finalCheck t reply =>
      cases reply with
      | none =>
          obtain ⟨hd, howes, hread⟩ := hok.at hp
          exact ⟨hdr hd, h.owes howes, h.reads hread⟩
      | some r => exact absurd (hok.at hp).1 hfin
  | deciding t r => exact absurd (hok.at hp).1 hfin
  | replying m =>
      obtain ⟨hset, howes⟩ := hok.at hp
      exact ⟨hsettled hset, h.owes howes⟩
  | exited =>
      obtain ⟨m, hset, hsent⟩ := hok.at hp
      exact ⟨m, hsettled hset, h.sent hsent⟩

/-- The handler goes on: who waits for its reply does not change. -/
theorem Request.Ok.handlerGoes {c c' : Request E N S} (hok : c.Ok) (h : SameReply c c')
    (hdrain : c'.drain = c.drain)
    (hhandler : c.handler ≠ .unstarted ∧ c.handler ≠ .exited)
    (hactive : ∀ server, c.Active server → c'.Active server) : c'.Ok :=
  hok.handlerStep h hhandler
    (fun server ha hd => ⟨hactive server ha, hdrain.trans hd⟩)
    (fun server ha hd => Or.inl ⟨hactive server ha, hdrain.trans hd⟩)

/-! ## §4. `processReq`, the timer and the caller. -/

/-- What the other steps leave alone. -/
structure SameRun (c c' : Request E N S) : Prop where
  handler : c'.handler = c.handler
  drain : c'.drain = c.drain
  runs : c'.runs = c.runs
  produced : c'.produced = c.produced

section SameRun

variable {c c' : Request E N S}

theorem Request.Quiet.same (hc : c.Quiet) (h : SameRun c c') : c'.Quiet :=
  ⟨h.handler.trans hc.handler, h.drain.trans hc.drain, h.runs.trans hc.runs,
    h.produced.trans hc.produced⟩

theorem Request.Active.same {server : S} (hc : c.Active server) (h : SameRun c c') :
    c'.Active server := by
  unfold Request.Active at hc ⊢
  rw [h.handler, h.runs, h.produced]
  exact hc

theorem Request.Drained.same {server : S} (hc : c.Drained server) (h : SameRun c c') :
    c'.Drained server := by
  rcases hc with ⟨ha, hd⟩ | ⟨hh, hd, hr, b, hb⟩
  · exact Or.inl ⟨ha.same h, h.drain.trans hd⟩
  · exact Or.inr ⟨h.handler.trans hh, h.drain.trans hd, h.runs.trans hr, b, h.produced.trans hb⟩

theorem Request.Finished.same {server : S} {r : ReplyMsg} (hc : c.Finished server r)
    (h : SameRun c c') : c'.Finished server r :=
  ⟨h.handler.trans hc.handler, h.drain.trans hc.drain, h.runs.trans hc.runs, hc.ok,
    h.produced.trans hc.produced⟩

theorem Request.Settled.same {m : ReplyMsg} (hc : c.Settled m) (h : SameRun c c')
    (hinfo : c'.info = c.info) : c'.Settled m := by
  rcases hc with ⟨hm, hq⟩ | ⟨hm, t, hread, hd⟩ | ⟨t, r, hread, hf, hm⟩
  · exact Or.inl ⟨hm, hq.same h⟩
  · exact Or.inr (Or.inl ⟨hm, t, hread.same hinfo, hd.same h⟩)
  · exact Or.inr (Or.inr ⟨t, r, hread.same hinfo, hf.same h, hm⟩)

end SameRun

section Step

variable [DecidableEq S] {rn : Registry E N S} {c c' : Request E N S}

/-- **One step of a request keeps its invariant.** -/
theorem Request.Ok.step (hok : c.Ok) (hs : ReqStep rn c c') : c'.Ok := by
  cases hs with
  | readAlive t h ht =>
      obtain ⟨hq, howes, -⟩ := hok.at h
      exact ⟨hq.same ⟨rfl, rfl, rfl, rfl⟩, howes.same rfl rfl rfl, _, rfl, ht⟩
  | readDead h ht =>
      obtain ⟨hq, howes, -⟩ := hok.at h
      exact ⟨.failed, Or.inl ⟨rfl, hq.same ⟨rfl, rfl, rfl, rfl⟩⟩,
        Or.inl ⟨Or.inl rfl, howes.caller, howes.messages⟩⟩
  | dropRequest t h hrel =>
      obtain ⟨hq, howes, -⟩ := hok.at h
      exact ⟨Or.inl ⟨rfl, hq.same ⟨rfl, rfl, rfl, rfl⟩⟩, howes.same rfl rfl rfl⟩
  | execute t h =>
      obtain ⟨hq, howes, hread⟩ := hok.at h
      exact ⟨⟨rfl, hq.runs, hq.produced⟩, hq.drain, howes.same rfl rfl rfl, hread⟩
  | dispatch server h =>
      refine hok.handlerGoes ⟨rfl, rfl, rfl, rfl, rfl⟩ rfl (by rw [h]; exact ⟨nofun, nofun⟩) ?_
      intro server' ha
      unfold Request.Active at ha
      rw [h] at ha
      obtain ⟨rfl, hruns, hprod⟩ := ha
      exact ⟨rfl, by rw [hruns]; rfl, hprod⟩
  | handlerReturn server bytes h =>
      refine hok.handlerGoes ⟨rfl, rfl, rfl, rfl, rfl⟩ rfl (by rw [h]; exact ⟨nofun, nofun⟩) ?_
      intro server' ha
      unfold Request.Active at ha
      rw [h] at ha
      obtain ⟨rfl, hruns, hprod⟩ := ha
      exact ⟨hruns, rfl, by rw [hprod]; rfl⟩
  | recvEch t r h hh =>
      obtain ⟨ha, hd, howes, hread⟩ := hok.at h
      obtain ⟨hruns, hrok, hprod⟩ := ha.sending hh
      exact ⟨⟨rfl, hd, hruns, hrok, hprod⟩, howes.same rfl rfl rfl, hread⟩
  | timeout t h =>
      obtain ⟨ha, hd, howes, hread⟩ := hok.at h
      exact ⟨ha, hd, howes.same rfl rfl rfl, hread⟩
  | checkAlive t h hdead =>
      obtain ⟨ha, hd, howes, hread⟩ := hok.at h
      exact ⟨ha, hd, howes.same rfl rfl rfl, hread⟩
  | checkDead t h hdead =>
      obtain ⟨ha, -, howes, hread⟩ := hok.at h
      exact ⟨Or.inl ⟨ha, rfl⟩, howes.same rfl rfl rfl, hread⟩
  | drainEch r hd hh =>
      -- the drain is at `<-ech`, so `processReq` has given the handler up
      have hun : c.drain ≠ .unstarted := by
        rw [hd]
        exact nofun
      refine hok.handlerStep ⟨rfl, rfl, rfl, rfl, rfl⟩ (by rw [hh]; exact ⟨nofun, nofun⟩)
        (fun _ _ h => absurd h hun) ?_
      intro server ha _
      obtain ⟨hruns, -, hprod⟩ := ha.sending hh
      exact Or.inr ⟨rfl, rfl, hruns, _, hprod⟩
  | finalDead t reply h hdead =>
      cases reply with
      | none =>
          obtain ⟨hd, howes, hread⟩ := hok.at h
          exact ⟨Or.inr (Or.inl ⟨rfl, t, hread, hd⟩), howes.same rfl rfl rfl⟩
      | some r =>
          obtain ⟨hf, howes, hread⟩ := hok.at h
          exact ⟨Or.inr (Or.inr ⟨t, r, hread, hf.same ⟨rfl, rfl, rfl, rfl⟩, nofun⟩),
            howes.same rfl rfl rfl⟩
  | finalAlive t r h hdead =>
      obtain ⟨hf, howes, hread⟩ := hok.at h
      exact ⟨hf.same ⟨rfl, rfl, rfl, rfl⟩, howes.same rfl rfl rfl, hread⟩
  | dropReply t r h hrel =>
      obtain ⟨hf, howes, hread⟩ := hok.at h
      exact ⟨Or.inr (Or.inr ⟨t, r, hread, hf.same ⟨rfl, rfl, rfl, rfl⟩, nofun⟩),
        howes.same rfl rfl rfl⟩
  | delayReply t r h hlong =>
      obtain ⟨hf, howes, hread⟩ := hok.at h
      have hset : r.ok = true → r = r := fun _ => rfl
      exact ⟨r, Or.inr (Or.inr ⟨t, r, hread, hf.same ⟨rfl, rfl, rfl, rfl⟩, hset⟩),
        Or.inl ⟨Or.inl rfl, howes.caller, howes.messages⟩⟩
  | sendReply t r h =>
      obtain ⟨hf, howes, hread⟩ := hok.at h
      have hset : r.ok = true → r = r := fun _ => rfl
      exact ⟨Or.inr (Or.inr ⟨t, r, hread, hf.same ⟨rfl, rfl, rfl, rfl⟩, hset⟩),
        howes.same rfl rfl rfl⟩
  | replyProc m h hc =>
      obtain ⟨hset, howes⟩ := hok.at h
      exact ⟨m, hset.same ⟨rfl, rfl, rfl, rfl⟩ rfl,
        Or.inr ⟨Or.inl howes.timer, by rw [howes.messages]; rfl, Or.inl rfl⟩⟩
  | fire m h =>
      obtain ⟨hex, hcaller, hmsg, hset⟩ := hok.timer (Or.inl h)
      show Request.OkAt _ c.proc
      rw [hex]
      exact ⟨m, hset.same ⟨rfl, rfl, rfl, rfl⟩ rfl,
        Or.inl ⟨Or.inr rfl, hcaller, hmsg⟩⟩
  | replyTimer m h hc =>
      obtain ⟨hex, -, hmsg, hset⟩ := hok.timer (Or.inr h)
      show Request.OkAt _ c.proc
      rw [hex]
      exact ⟨m, hset.same ⟨rfl, rfl, rfl, rfl⟩ rfl,
        Or.inr ⟨Or.inr rfl, by rw [hmsg]; rfl, Or.inl rfl⟩⟩
  | callReturn m h =>
      obtain ⟨hex, ht, hmsg, hset⟩ := hok.got h
      show Request.OkAt _ c.proc
      rw [hex]
      exact ⟨m, hset.same ⟨rfl, rfl, rfl, rfl⟩ rfl, Or.inr ⟨ht, hmsg, Or.inr rfl⟩⟩

/-- The send on `ech` can be completed by the goroutines of the request alone. -/
theorem Request.Receiving.run (hc : c.Receiving)
    {r : ReplyMsg} (hh : c.handler = .sending r) :
    ∃ c', Relation.ReflTransGen (ReqStep rn) c c' ∧ c'.handler = .exited := by
  rcases hc with ⟨t, hp | hp⟩ | hd
  · exact ⟨_, .single (.recvEch t r hp hh), rfl⟩
  · cases hdead : rn.isServerDead c.req.endname t.servername t.server with
    | false => exact ⟨_, .tail (.single (.checkAlive t hp hdead)) (.recvEch t r rfl hh), rfl⟩
    | true => exact ⟨_, .tail (.single (.checkDead t hp hdead)) (.drainEch r rfl hh), rfl⟩
  · exact ⟨_, .single (.drainEch r hd hh), rfl⟩

/-- The send on `replyCh` is possible at once. -/
theorem Request.reply_run (hc : c.caller = .waiting)
    {m : ReplyMsg} (h : c.proc = .replying m ∨ c.timer = .firing m) :
    ∃ c', ReqStep rn c c' ∧ c'.caller = .got m := by
  rcases h with hp | ht
  · exact ⟨_, .replyProc m hp hc, rfl⟩
  · exact ⟨_, .replyTimer m ht hc, rfl⟩

end Step

end ComputerScience.Labrpc
