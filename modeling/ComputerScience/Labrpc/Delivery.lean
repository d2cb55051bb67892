/-
  ComputerScience.Labrpc.Delivery
  ───────────────────────────────
  **DELIVERY: AT MOST ONE HANDLER RUN, AT MOST ONE REPLY, NO LOST GOROUTINE.**

      `NetStep.reqs_cases`     a step of the network concerns at most one request
      `reachable_request`      the invariant rule for the requests of a run
      `network_delivery`       what holds of every call of every run
-/
import ComputerScience.Labrpc.Request

namespace ComputerScience.Labrpc

open ComputerScience.Lib

variable {E N S : Type}

/-! ## §1. The requests of a run. -/

section Network

variable [DecidableEq S]

/-- What one step of the network does to one request. -/
inductive ReqMove (rn : Registry E N S) (c : Request E N S) : Request E N S → Prop where
  | accept (hc : c.caller = .sending) :
      ReqMove rn c { c with caller := .waiting, proc := .accepted }
  | abandon (hc : c.caller = .sending) : ReqMove rn c { c with caller := .returned none }
  | spawn (hp : c.proc = .accepted) : ReqMove rn c { c with proc := .reading }
  | own {c' : Request E N S} (hs : ReqStep rn c c') : ReqMove rn c c'

theorem Request.Ok.move {rn : Registry E N S} {c c' : Request E N S} (hok : c.Ok)
    (hm : ReqMove rn c c') : c'.Ok := by
  cases hm with
  | accept hc =>
      obtain ⟨hq, -, ht, hmsg, hinfo⟩ := hok.at (hok.sending hc)
      exact ⟨hq.same ⟨rfl, rfl, rfl, rfl⟩, ⟨rfl, ht, hmsg⟩, hinfo⟩
  | abandon hc =>
      have hp := hok.sending hc
      obtain ⟨hq, -, ht, hmsg, hinfo⟩ := hok.at hp
      show Request.OkAt _ c.proc
      rw [hp]
      exact ⟨hq.same ⟨rfl, rfl, rfl, rfl⟩, Or.inr rfl, ht, hmsg, hinfo⟩
  | spawn hp =>
      obtain ⟨hq, howes, hinfo⟩ := hok.at hp
      exact ⟨hq.same ⟨rfl, rfl, rfl, rfl⟩, howes.same rfl rfl rfl, hinfo⟩
  | own hs => exact hok.step hs

variable [DecidableEq E] [DecidableEq N] {s s' : Network E N S}

/-- **What a step of the network does to the requests.** -/
theorem NetStep.reqs_cases (h : NetStep s s') :
    s'.reqs = s.reqs ∨ (∃ req, s'.reqs = s.reqs ++ [.start req]) ∨
      ∃ i c c', s.reqs[i]? = some c ∧ ReqMove s.rn c c' ∧ s'.reqs = s.reqs.set i c' := by
  cases h with
  | op o h => exact Or.inl rfl
  | opFatal o h => exact Or.inl rfl
  | cleanup h => exact Or.inl rfl
  | cleanupPanic h => exact Or.inl rfl
  | call req h => exact Or.inr (Or.inl ⟨req, rfl⟩)
  | accept i c h hc hl => exact Or.inr (Or.inr ⟨i, c, _, h, .accept hc, rfl⟩)
  | abandon i c h hc hd => exact Or.inr (Or.inr ⟨i, c, _, h, .abandon hc, rfl⟩)
  | spawn i c h hl hp => exact Or.inr (Or.inr ⟨i, c, _, h, .spawn hp, rfl⟩)
  | loopExit hl hd => exact Or.inl rfl
  | request i c c' h hs => exact Or.inr (Or.inr ⟨i, c, c', h, .own hs, rfl⟩)
  | dispatchFatal i c server h hh => exact Or.inl rfl
  | decodeFatal i c m h hc hok => exact Or.inl rfl

/-- **The invariant rule for requests**: what holds of a new request, is kept by the steps of
the request and is not lost by other steps of the network holds of every request. -/
theorem reachable_request {P : Network E N S → ℕ → Request E N S → Prop}
    (hstart : ∀ s i req, P s i (.start req))
    (hmove : ∀ s s' i c c', (makeNetwork E N S).Reachable s → (makeNetwork E N S).step s s' →
      s.reqs[i]? = some c → ReqMove s.rn c c' → P s i c → P s' i c')
    (hother : ∀ s s' i c, (makeNetwork E N S).step s s' → P s i c → P s' i c)
    (hs : (makeNetwork E N S).Reachable s) :
    ∀ (i : ℕ) (c : Request E N S), s.reqs[i]? = some c → P s i c := by
  refine System.Reachable.invariant
    (I := fun s => ∀ (i : ℕ) (c : Request E N S), s.reqs[i]? = some c → P s i c) ?_ ?_ hs
  · intro s h0 i c hi
    cases h0
    exact absurd hi (by simp)
  · intro s s' hreach ih hstep i c hi
    rcases hstep.2.reqs_cases with heq | ⟨req, heq⟩ | ⟨j, d, d', hj, hm, heq⟩
    · rw [heq] at hi
      exact hother s s' i c hstep (ih i c hi)
    · rw [heq] at hi
      rcases getElem?_concat_cases hi with hi | ⟨-, rfl⟩
      · exact hother s s' i c hstep (ih i c hi)
      · exact hstart s' i req
    · rw [heq] at hi
      rcases getElem?_set_cases hi with ⟨rfl, rfl⟩ | ⟨-, hi⟩
      · exact hmove s s' i d c hreach hstep hj hm (ih i d hj)
      · exact hother s s' i c hstep (ih i c hi)

/-- **Every request of a run keeps the invariant.** -/
theorem reachable_ok (hs : (makeNetwork E N S).Reachable s) {i : ℕ} {c : Request E N S}
    (hi : s.reqs[i]? = some c) : c.Ok := by
  refine reachable_request (P := fun _ _ c => c.Ok) ?_ ?_ ?_ hs i c hi
  · exact fun _ _ req => Request.start_ok req
  · exact fun _ _ _ _ _ _ _ _ hm hok => hok.move hm
  · exact fun _ _ _ _ _ hok => hok

/-- The goroutines of a request can go on while the rest of the network stands still. -/
theorem request_run {i : ℕ} {c c' : Request E N S} (hdead : s.dead = false)
    (hi : s.reqs[i]? = some c) (hr : Relation.ReflTransGen (ReqStep s.rn) c c') :
    Relation.ReflTransGen (makeNetwork E N S).step s { s with reqs := s.reqs.set i c' } := by
  have hlt := (List.getElem?_eq_some_iff.mp hi).1
  induction hr with
  | refl =>
      have hset : s.reqs.set i c = s.reqs := by
        rw [← (List.getElem?_eq_some_iff.mp hi).2, List.set_getElem_self]
      rw [hset]
  | @tail d e hcd hde ih =>
      have hget : (s.reqs.set i d)[i]? = some d := List.getElem?_set_self hlt
      have hstep := @NetStep.request E N S _ _ _ { s with reqs := s.reqs.set i d } i d e hget hde
      rw [List.set_set] at hstep
      exact ih.tail ⟨hdead, hstep⟩

/-! ## §2. Delivery. -/

/-- **Delivery.**  In every state of every run, for every call: its handler has run at most
once; at most one message was sent on its `replyCh`; if it has returned true it has decoded
the bytes that its own handler run produced; a goroutine at `ech <- r` has its receiver, and
the send can be completed; a goroutine at `req.replyCh <- m` has its caller waiting, and the
send is possible at once. -/
theorem network_delivery (hs : (makeNetwork E N S).Reachable s) {i : ℕ} {c : Request E N S}
    (hi : s.reqs[i]? = some c) :
    c.runs.length ≤ 1 ∧
    c.messages.length ≤ 1 ∧
    (∀ bytes, c.caller = .returned (some bytes) →
      c.messages = [⟨true, bytes⟩] ∧ c.runs.length = 1 ∧ c.produced = [bytes]) ∧
    (∀ r, c.handler = .sending r → c.Receiving ∧ (s.dead = false →
      ∃ s' c', Relation.ReflTransGen (makeNetwork E N S).step s s' ∧
        s'.reqs[i]? = some c' ∧ c'.handler = .exited)) ∧
    (∀ m, c.proc = .replying m ∨ c.timer = .firing m → c.caller = .waiting ∧ (s.dead = false →
      ∃ s' c', (makeNetwork E N S).step s s' ∧ s'.reqs[i]? = some c' ∧ c'.caller = .got m)) := by
  have hok := reachable_ok hs hi
  have hlt := (List.getElem?_eq_some_iff.mp hi).1
  refine ⟨hok.runs_le, hok.messages_le, ?_, ?_, ?_⟩
  · intro bytes hc
    obtain ⟨hmsg, t, -, hf⟩ := hok.returned_true hc
    exact ⟨hmsg, by rw [hf.runs]; rfl, hf.produced⟩
  · intro r hh
    refine ⟨hok.receiving hh, fun hdead => ?_⟩
    obtain ⟨c', hrun, he⟩ := (hok.receiving hh).run hh
    exact ⟨_, c', request_run hdead hi hrun, List.getElem?_set_self hlt, he⟩
  · intro m h
    refine ⟨hok.replying h, fun hdead => ?_⟩
    obtain ⟨c', hstep, hgot⟩ := Request.reply_run (hok.replying h) h
    exact ⟨_, c', ⟨hdead, .request i c c' hi hstep⟩, List.getElem?_set_self hlt, hgot⟩

end Network

def pingReq : ReqMsg ℕ := ⟨0, "Ping.Get", [5]⟩

/-- An end `0` that is enabled and connected to the server `9` under the name `3`. -/
def pingRegistry : Registry ℕ ℕ ℕ :=
  NetOp.apply (NetOp.apply (NetOp.apply (NetOp.apply .make (.makeEnd 0)) (.addServer 3 9))
    (.connect 0 (some 3))) (.enable 0 true)

/-- Its request after the call has returned true. -/
def pingReturned : Request ℕ ℕ ℕ :=
  ⟨pingReq, .returned (some [7]), .exited, .exited, .unstarted, .unset,
    some ⟨true, some 3, some 9, true, false⟩, [9], [[7]], [⟨true, [7]⟩]⟩

/-- The run of one call that returns true. -/
theorem pingReturned_reachable :
    (makeNetwork ℕ ℕ ℕ).Reachable ⟨pingRegistry, [pingReturned], .selecting, false, false⟩ := by
  have h0 : (makeNetwork ℕ ℕ ℕ).Reachable ⟨.make, [], .selecting, false, false⟩ :=
    System.Reachable.of_init rfl
  have h1 : (makeNetwork ℕ ℕ ℕ).Reachable ⟨pingRegistry, [], .selecting, false, false⟩ :=
    (((h0.tail ⟨rfl, .op (.makeEnd 0) rfl⟩).tail ⟨rfl, .op (.addServer 3 9) rfl⟩).tail
      ⟨rfl, .op (.connect 0 (some 3)) rfl⟩).tail ⟨rfl, .op (.enable 0 true) rfl⟩
  have h2 := ((h1.tail ⟨rfl, .call pingReq rfl⟩).tail ⟨rfl, .accept 0 _ rfl rfl rfl⟩).tail
    ⟨rfl, .spawn 0 _ rfl rfl rfl⟩
  let t : Target ℕ ℕ := ⟨3, 9, true, false⟩
  exact (((((((((h2.tail ⟨rfl, .request 0 _ _ rfl (.readAlive t rfl rfl)⟩).tail
    ⟨rfl, .request 0 _ _ rfl (.execute t rfl)⟩).tail
    ⟨rfl, .request 0 _ _ rfl (.dispatch 9 rfl)⟩).tail
    ⟨rfl, .request 0 _ _ rfl (.handlerReturn 9 [7] rfl)⟩).tail
    ⟨rfl, .request 0 _ _ rfl (.recvEch t ⟨true, [7]⟩ rfl rfl)⟩).tail
    ⟨rfl, .request 0 _ _ rfl (.finalAlive t ⟨true, [7]⟩ rfl rfl)⟩).tail
    ⟨rfl, .request 0 _ _ rfl (.sendReply t ⟨true, [7]⟩ rfl)⟩).tail
    ⟨rfl, .request 0 _ _ rfl (.replyProc ⟨true, [7]⟩ rfl rfl)⟩).tail
    ⟨rfl, .request 0 _ _ rfl (.callReturn ⟨true, [7]⟩ rfl)⟩)

theorem network_delivery_ping :
    (makeNetwork ℕ ℕ ℕ).Reachable ⟨pingRegistry, [pingReturned], .selecting, false, false⟩ ∧
      pingReturned.runs.length = 1 ∧ pingReturned.produced = [[7]] := by
  have h := network_delivery pingReturned_reachable (i := 0) (c := pingReturned) rfl
  exact ⟨pingReturned_reachable, (h.2.2.1 [7] rfl).2.1, (h.2.2.1 [7] rfl).2.2⟩

end ComputerScience.Labrpc
