/-
  ComputerScience.PubSub.ServerV2
  ───────────────────────────────
  **THE PUBLISH/SUBSCRIBE SERVER WITH ONE HELPER PER SUBSCRIBER**
  (`01_publish_subscribe/server_v2.go`).

  `loopV2` owns the map from subscribed channels to helper channels; `helperV3` queues
  the events for one subscriber.  The law of `pub_sub.go`: a channel is closed after its
  cancellation and after all events accepted before it, and the events sent on it are in
  the order of their acceptance.

  `helperV3` runs its loop while `in != nil && len(q) > 0`.  The queue starts empty, so the
  loop body is never entered: a helper closes its subscriber's channel the first time it is
  scheduled, and `loopV2` blocks for good at the first event it has for a helper.  The law
  is kept exactly as long as no helper is scheduled before its cancellation
  (`serverV2_law`, and `serverV2_closes_early` for a helper that is).
-/
import ComputerScience.Lib.Pool
import ComputerScience.Lib.TransitionSystem
import Mathlib.Logic.Function.Basic

namespace ComputerScience.PubSub

open ComputerScience.Lib

/-! ## §1. The goroutines and the channels. -/

/-- A goroutine that calls `Publish`, `Subscribe` and `Cancel`. -/
inductive CallerPc (C E : Type) where
  | idle
  /-- before `s.publish <- e` -/
  | publishing (e : E)
  /-- before `s.subscribe <- r` -/
  | subscribing (c : C)
  /-- before `s.cancel <- r` -/
  | cancelling (c : C)
  /-- before `<-r.ok` -/
  | awaiting
  /-- after `panic("pubsub: …")` -/
  | panicked

/-- Where `loopV2` is; `i` is the caller whose request is served. -/
inductive LoopPc (C E : Type) where
  | select
  /-- in `for _, h := range sub { h <- e }`, with the helpers still to be served -/
  | publishing (e : E) (rest : List ℕ)
  /-- before `close(sub[r.c])` and `delete(sub, r.c)` -/
  | closing (i : ℕ) (c : C) (k : ℕ)
  /-- before `r.ok <- ok` -/
  | replying (i : ℕ) (ok : Bool)

/-- Where a helper is. -/
inductive HelperPc where
  /-- at the loop condition -/
  | test
  /-- at the `select` -/
  | select
  /-- after `close(out)` -/
  | exited
  deriving DecidableEq, Repr

/-- A goroutine `helperV3(in, out)`, with the history of its subscription. -/
structure Helper (C E : Type) where
  out : C
  pc : HelperPc
  /-- `loopV2` has closed the channel `in`. -/
  inClosed : Bool
  /-- The variable `in` is nil. -/
  inNil : Bool
  q : List E
  /-- The events `loopV2` accepted between the `Subscribe` and the `Cancel`. -/
  accepted : List E
  /-- `loopV2` has accepted the `Cancel`. -/
  cancelled : Bool

/-- A subscriber's channel: what was sent on it, and whether it is closed. -/
structure Chan (E : Type) where
  sent : List E
  closed : Bool

structure ServerV2 (C E : Type) where
  callers : List (CallerPc C E)
  loop : LoopPc C E
  /-- The map `sub`; a helper stands for its channel `in`. -/
  sub : List (C × ℕ)
  helpers : List (Helper C E)
  chan : C → Chan E
  /-- A send on, or a close of, a closed channel happened. -/
  crashed : Bool

/-- `go helperV3(h, r.c)` -/
def Helper.start {C E : Type} (c : C) : Helper C E where
  out := c
  pc := .test
  inClosed := false
  inNil := false
  q := []
  accepted := []
  cancelled := false

/-- `loopV2` accepts `e` while the helpers of `subs` are subscribed. -/
def acceptEvent {C E : Type} (e : E) (subs : List ℕ) (helpers : List (Helper C E)) :
    List (Helper C E) :=
  helpers.mapIdx fun k h => if k ∈ subs then { h with accepted := h.accepted ++ [e] } else h

/-- The loop condition of `helperV3`: `in != nil && len(q) > 0`. -/
def Helper.continues {C E : Type} (h : Helper C E) : Bool :=
  !h.inNil && decide (0 < h.q.length)

/-- One step.  A send on an unbuffered channel of the server is one step of both sides;
whether and when a subscriber's channel takes an event is up to its receiver. -/
inductive V2Step {C E : Type} [DecidableEq C] (s : ServerV2 C E) : ServerV2 C E → Prop where
  | callPublish (i : ℕ) (e : E) (h : s.callers[i]? = some .idle) :
      V2Step s { s with callers := s.callers.set i (.publishing e) }
  | callSubscribe (i : ℕ) (c : C) (h : s.callers[i]? = some .idle) :
      V2Step s { s with callers := s.callers.set i (.subscribing c) }
  | callCancel (i : ℕ) (c : C) (h : s.callers[i]? = some .idle) :
      V2Step s { s with callers := s.callers.set i (.cancelling c) }
  | acceptPublish (i : ℕ) (e : E) (h : s.callers[i]? = some (.publishing e))
      (hl : s.loop = .select) :
      V2Step s { s with
        callers := s.callers.set i .idle
        loop := .publishing e (s.sub.map Prod.snd)
        helpers := acceptEvent e (s.sub.map Prod.snd) s.helpers }
  -- `sub[r.c] != nil` is false: the channel is new
  | acceptSubscribe (i : ℕ) (c : C) (h : s.callers[i]? = some (.subscribing c))
      (hl : s.loop = .select) (hsub : s.sub.lookup c = none) :
      V2Step s { s with
        callers := s.callers.set i .awaiting
        loop := .replying i true
        sub := s.sub ++ [(c, s.helpers.length)]
        helpers := s.helpers ++ [Helper.start c] }
  | rejectSubscribe (i k : ℕ) (c : C) (h : s.callers[i]? = some (.subscribing c))
      (hl : s.loop = .select) (hsub : s.sub.lookup c = some k) :
      V2Step s { s with callers := s.callers.set i .awaiting, loop := .replying i false }
  | acceptCancel (i k : ℕ) (c : C) (hp : Helper C E) (h : s.callers[i]? = some (.cancelling c))
      (hl : s.loop = .select) (hsub : s.sub.lookup c = some k) (hk : s.helpers[k]? = some hp) :
      V2Step s { s with
        callers := s.callers.set i .awaiting
        loop := .closing i c k
        helpers := s.helpers.set k { hp with cancelled := true } }
  | rejectCancel (i : ℕ) (c : C) (h : s.callers[i]? = some (.cancelling c))
      (hl : s.loop = .select) (hsub : s.sub.lookup c = none) :
      V2Step s { s with callers := s.callers.set i .awaiting, loop := .replying i false }
  | closeHelper (i k : ℕ) (c : C) (hp : Helper C E) (hl : s.loop = .closing i c k)
      (hk : s.helpers[k]? = some hp) :
      V2Step s { s with
        loop := .replying i true
        sub := s.sub.filter fun p => p.1 ≠ c
        helpers := s.helpers.set k { hp with inClosed := true } }
  | reply (i : ℕ) (ok : Bool) (h : s.callers[i]? = some .awaiting) (hl : s.loop = .replying i ok) :
      V2Step s { s with
        callers := s.callers.set i (if ok then .idle else .panicked)
        loop := .select }
  | publishEnd (e : E) (hl : s.loop = .publishing e []) :
      V2Step s { s with loop := .select }
  -- `h <- e` needs the helper at its `select`, with `in` not nil
  | handOver (e : E) (rest : List ℕ) (k : ℕ) (hp : Helper C E)
      (hl : s.loop = .publishing e rest) (hmem : k ∈ rest) (hk : s.helpers[k]? = some hp)
      (hpc : hp.pc = .select) (hnil : hp.inNil = false) (hopen : hp.inClosed = false) :
      V2Step s { s with
        loop := .publishing e (rest.erase k)
        helpers := s.helpers.set k { hp with q := hp.q ++ [e], pc := .test } }
  | handOverClosed (e : E) (rest : List ℕ) (k : ℕ) (hp : Helper C E)
      (hl : s.loop = .publishing e rest) (hmem : k ∈ rest) (hk : s.helpers[k]? = some hp)
      (hclosed : hp.inClosed = true) :
      V2Step s { s with crashed := true }
  | helperEnter (k : ℕ) (hp : Helper C E) (hk : s.helpers[k]? = some hp) (hpc : hp.pc = .test)
      (hcont : hp.continues = true) :
      V2Step s { s with helpers := s.helpers.set k { hp with pc := .select } }
  -- `close(out)`, the last statement of `helperV3`
  | helperExit (k : ℕ) (hp : Helper C E) (hk : s.helpers[k]? = some hp) (hpc : hp.pc = .test)
      (hcont : hp.continues = false) (hopen : (s.chan hp.out).closed = false) :
      V2Step s { s with
        helpers := s.helpers.set k { hp with pc := .exited }
        chan := Function.update s.chan hp.out { s.chan hp.out with closed := true } }
  | helperExitClosed (k : ℕ) (hp : Helper C E) (hk : s.helpers[k]? = some hp)
      (hpc : hp.pc = .test) (hcont : hp.continues = false)
      (hclosed : (s.chan hp.out).closed = true) :
      V2Step s { s with crashed := true }
  -- the receive from the closed `in` gives `ok == false`
  | helperIn (k : ℕ) (hp : Helper C E) (hk : s.helpers[k]? = some hp) (hpc : hp.pc = .select)
      (hnil : hp.inNil = false) (hclosed : hp.inClosed = true) :
      V2Step s { s with helpers := s.helpers.set k { hp with inNil := true, pc := .test } }
  | deliver (k : ℕ) (hp : Helper C E) (e : E) (rest : List E) (hk : s.helpers[k]? = some hp)
      (hpc : hp.pc = .select) (hq : hp.q = e :: rest) (hopen : (s.chan hp.out).closed = false) :
      V2Step s { s with
        helpers := s.helpers.set k { hp with q := rest, pc := .test }
        chan := Function.update s.chan hp.out
          { s.chan hp.out with sent := (s.chan hp.out).sent ++ [e] } }
  | deliverClosed (k : ℕ) (hp : Helper C E) (hk : s.helpers[k]? = some hp)
      (hpc : hp.pc = .select) (hq : hp.q ≠ []) (hclosed : (s.chan hp.out).closed = true) :
      V2Step s { s with crashed := true }

/-- `Init`, with any number of callers. -/
def serverV2System (C E : Type) [DecidableEq C] : System (ServerV2 C E) where
  init s := (∀ pc ∈ s.callers, pc = .idle) ∧ s.loop = .select ∧ s.sub = [] ∧ s.helpers = [] ∧
    s.chan = (fun _ => ⟨[], false⟩) ∧ s.crashed = false
  step := V2Step

/-! ## §2. The law. -/

variable {C E : Type}

/-- **The law of `PubSub`** for the channel of a helper: what was sent is a prefix of what
was accepted, and the channel is closed after the cancellation with everything sent. -/
def Lawful (s : ServerV2 C E) (hp : Helper C E) : Prop :=
  (s.chan hp.out).sent <+: hp.accepted ∧
    ((s.chan hp.out).closed = true →
      hp.cancelled = true ∧ (s.chan hp.out).sent = hp.accepted)

/-- The channel of the helper `k` was subscribed once. -/
def SubscribedOnce (s : ServerV2 C E) (k : ℕ) (hp : Helper C E) : Prop :=
  s.helpers[k]? = some hp ∧
    ∀ (j : ℕ) (hp' : Helper C E), s.helpers[j]? = some hp' → hp'.out = hp.out → j = k

/-- The helper `k` is scheduled at its loop condition. -/
def Scheduled (s s' : ServerV2 C E) (k : ℕ) : Prop :=
  ∃ hp hp' : Helper C E, s.helpers[k]? = some hp ∧ s'.helpers[k]? = some hp' ∧
    hp.pc = .test ∧ hp'.pc ≠ .test

/-- A helper is scheduled whose `Cancel` is not accepted yet and whose loop condition is
false. -/
def EarlyExit (s s' : ServerV2 C E) : Prop :=
  ∃ (k : ℕ) (hp : Helper C E), s.helpers[k]? = some hp ∧ hp.cancelled = false ∧
    hp.continues = false ∧ Scheduled s s' k

/-- A helper that is not scheduled before its cancellation: its queue is empty, it is not
inside its loop, and no event was accepted for it that `loopV2` still had to hand over. -/
structure Helper.Unserved (hp : Helper C E) : Prop where
  q : hp.q = []
  pc : hp.pc ≠ .select
  exited : hp.pc = .exited → hp.cancelled = true
  cancelled : hp.cancelled = true → hp.accepted = []

/-- The invariant of the runs without an early exit. -/
structure V2Inv (loop : LoopPc C E) (sub : List (C × ℕ)) (helpers : List (Helper C E))
    (chan : C → Chan E) : Prop where
  helper : ∀ (k : ℕ) (hp : Helper C E), helpers[k]? = some hp → hp.Unserved
  /-- An accepted event blocks `loopV2` at the helpers it was accepted for. -/
  window : ∀ (k : ℕ) (hp : Helper C E), helpers[k]? = some hp → hp.accepted ≠ [] →
    ∃ e rest, loop = .publishing e rest ∧ k ∈ rest
  sub : ∀ (c : C) (k : ℕ), (c, k) ∈ sub → ∃ hp, helpers[k]? = some hp ∧ hp.out = c ∧
    (hp.cancelled = true → ∃ i, loop = .closing i c k)
  closed : ∀ c, (chan c).closed = true → ∃ (k : ℕ) (hp : Helper C E),
    helpers[k]? = some hp ∧ hp.out = c ∧ hp.pc = .exited
  sent : ∀ c, (chan c).sent = []

/-- In a state of the invariant the law holds. -/
theorem V2Inv.lawful {s : ServerV2 C E} (hinv : V2Inv s.loop s.sub s.helpers s.chan) {k : ℕ}
    {hp : Helper C E} (honce : SubscribedOnce s k hp) : Lawful s hp := by
  obtain ⟨hk, huniq⟩ := honce
  constructor
  · rw [hinv.sent]
    exact List.nil_prefix
  · intro hclosed
    -- who closed the channel is a helper that has left its loop
    obtain ⟨j, hp', hj, hout, hpc⟩ := hinv.closed hp.out hclosed
    obtain rfl : j = k := huniq j hp' hj hout
    obtain rfl : hp' = hp := Option.some.inj (hj.symm.trans hk)
    have hcanc := (hinv.helper j hp' hj).exited hpc
    refine ⟨hcanc, ?_⟩
    rw [hinv.sent, (hinv.helper j hp' hj).cancelled hcanc]

/-! ## §3. One step. -/

/-- `loopV2` between two requests: nothing is accepted and not handed over. -/
theorem V2Inv.window_nil {loop : LoopPc C E} {sub : List (C × ℕ)} {helpers : List (Helper C E)}
    {chan : C → Chan E} (hinv : V2Inv loop sub helpers chan)
    (hl : ∀ e rest, loop = .publishing e rest → rest = []) {k : ℕ} {hp : Helper C E}
    (hk : helpers[k]? = some hp) : hp.accepted = [] := by
  by_contra hne
  obtain ⟨e, rest, hloop, hmem⟩ := hinv.window k hp hk hne
  rw [hl e rest hloop] at hmem
  exact absurd hmem (by simp)

/-- The same after a change to one helper. -/
theorem V2Inv.window_nil_set {loop : LoopPc C E} {sub : List (C × ℕ)}
    {helpers : List (Helper C E)} {chan : C → Chan E} (hinv : V2Inv loop sub helpers chan)
    (hl : ∀ e rest, loop = .publishing e rest → rest = []) {k j : ℕ} {hp hp' q : Helper C E}
    (hk : helpers[k]? = some hp) (hj : (helpers.set k hp')[j]? = some q)
    (hacc : hp'.accepted = hp.accepted) : q.accepted = [] := by
  rcases getElem?_set_cases hj with ⟨_, rfl⟩ | ⟨_, hj'⟩
  · rw [hacc]
    exact hinv.window_nil hl hk
  · exact hinv.window_nil hl hj'

/-- `loopV2` goes on to a state that is neither publishing nor closing. -/
theorem V2Inv.loopMove {loop loop' : LoopPc C E} {sub : List (C × ℕ)}
    {helpers : List (Helper C E)} {chan : C → Chan E} (hinv : V2Inv loop sub helpers chan)
    (hl : ∀ e rest, loop = .publishing e rest → rest = [])
    (hclosing : ∀ i c k, loop ≠ .closing i c k) :
    V2Inv loop' sub helpers chan := by
  constructor
  · exact hinv.helper
  · intro k hp hk hne
    exact absurd (hinv.window_nil hl hk) hne
  · intro c k hmem
    obtain ⟨hp, hk, hout, hc⟩ := hinv.sub c k hmem
    refine ⟨hp, hk, hout, ?_⟩
    intro hcanc
    obtain ⟨i, hi⟩ := hc hcanc
    exact absurd hi (hclosing i c k)
  · exact hinv.closed
  · exact hinv.sent

theorem getElem?_acceptEvent {e : E} {subs : List ℕ} {helpers : List (Helper C E)} {k : ℕ}
    {hp' : Helper C E} (h : (acceptEvent e subs helpers)[k]? = some hp') :
    ∃ hp, helpers[k]? = some hp ∧
      hp' = if k ∈ subs then { hp with accepted := hp.accepted ++ [e] } else hp := by
  unfold acceptEvent at h
  rw [List.getElem?_mapIdx] at h
  cases hk : helpers[k]? with
  | none => simp [hk] at h
  | some hp =>
      rw [hk] at h
      exact ⟨hp, rfl, (Option.some.inj h).symm⟩

/-- `loopV2` accepts an event: it is in the window of the subscribed helpers. -/
theorem V2Inv.acceptPublish {sub : List (C × ℕ)} {helpers : List (Helper C E)}
    {chan : C → Chan E} (hinv : V2Inv .select sub helpers chan) (e : E) :
    V2Inv (.publishing e (sub.map Prod.snd)) sub (acceptEvent e (sub.map Prod.snd) helpers)
      chan := by
  have hnil : ∀ {k : ℕ} {hp : Helper C E}, helpers[k]? = some hp → hp.accepted = [] :=
    fun hk => hinv.window_nil (fun _ _ h => by cases h) hk
  -- between two requests a subscribed helper is not cancelled
  have hlive : ∀ {k : ℕ} {hp : Helper C E}, helpers[k]? = some hp → k ∈ sub.map Prod.snd →
      hp.cancelled = false := by
    intro k hp hk hmem
    obtain ⟨⟨c, k'⟩, hmem', hk'⟩ := List.mem_map.mp hmem
    obtain rfl : k' = k := hk'
    obtain ⟨hp', hk'', _, hc⟩ := hinv.sub c k' hmem'
    obtain rfl : hp' = hp := Option.some.inj (hk''.symm.trans hk)
    cases hcanc : hp'.cancelled with
    | false => rfl
    | true =>
        obtain ⟨i, hi⟩ := hc hcanc
        cases hi
  constructor
  · intro k hp' hk'
    obtain ⟨hp, hk, rfl⟩ := getElem?_acceptEvent hk'
    split
    next hmem =>
      obtain ⟨h1, h2, h3, h4⟩ := hinv.helper k hp hk
      refine ⟨h1, h2, h3, ?_⟩
      intro hcanc
      have hcanc : hp.cancelled = true := hcanc
      rw [hlive hk hmem] at hcanc
      exact absurd hcanc (by simp)
    next => exact hinv.helper k hp hk
  · intro k hp' hk' hne
    obtain ⟨hp, hk, rfl⟩ := getElem?_acceptEvent hk'
    -- only a subscribed helper has something accepted
    refine ⟨e, _, rfl, ?_⟩
    by_contra hmem
    rw [if_neg hmem, hnil hk] at hne
    exact hne rfl
  · intro c k hmem
    obtain ⟨hp, hk, hout, hc⟩ := hinv.sub c k hmem
    have hmem' : k ∈ sub.map Prod.snd := List.mem_map.mpr ⟨(c, k), hmem, rfl⟩
    refine ⟨{ hp with accepted := hp.accepted ++ [e] }, ?_, hout, ?_⟩
    · unfold acceptEvent
      rw [List.getElem?_mapIdx, hk]
      simp only [Option.map_some, if_pos hmem']
    · intro hcanc
      have hcanc : hp.cancelled = true := hcanc
      rw [hlive hk hmem'] at hcanc
      exact absurd hcanc (by simp)
  · intro c hclosed
    obtain ⟨k, hp, hk, hout, hpc⟩ := hinv.closed c hclosed
    refine ⟨k, if k ∈ sub.map Prod.snd then { hp with accepted := hp.accepted ++ [e] } else hp,
      ?_, ?_, ?_⟩
    · unfold acceptEvent
      rw [List.getElem?_mapIdx, hk]
      rfl
    · split <;> exact hout
    · split <;> exact hpc
  · exact hinv.sent

/-- `loopV2` accepts a subscription and starts its helper. -/
theorem V2Inv.acceptSubscribe {sub : List (C × ℕ)} {helpers : List (Helper C E)}
    {chan : C → Chan E} (hinv : V2Inv .select sub helpers chan) (c : C) (i : ℕ) :
    V2Inv (.replying i true) (sub ++ [(c, helpers.length)]) (helpers ++ [Helper.start c])
      chan := by
  -- the helpers are the old ones and the new one
  have hcases : ∀ {k : ℕ} {hp : Helper C E}, (helpers ++ [Helper.start c])[k]? = some hp →
      helpers[k]? = some hp ∨ hp = Helper.start c := by
    intro k hp hk
    rw [List.getElem?_append] at hk
    split at hk
    · exact Or.inl hk
    · exact Or.inr (List.mem_singleton.mp (List.mem_of_getElem? hk))
  have hold : ∀ {k : ℕ} {hp : Helper C E}, helpers[k]? = some hp →
      (helpers ++ [Helper.start c])[k]? = some hp := by
    intro k hp hk
    rw [List.getElem?_append_left (List.getElem?_eq_some_iff.mp hk).1]
    exact hk
  constructor
  · intro k hp hk
    rcases hcases hk with hk | rfl
    · exact hinv.helper k hp hk
    · exact ⟨rfl, by simp [Helper.start], by simp [Helper.start], fun _ => rfl⟩
  · intro k hp hk hne
    rcases hcases hk with hk | rfl
    · exact absurd (hinv.window_nil (fun _ _ h => by cases h) hk) hne
    · exact absurd rfl hne
  · intro c' k hmem
    rcases List.mem_append.mp hmem with hmem | hmem
    · obtain ⟨hp, hk, hout, hc⟩ := hinv.sub c' k hmem
      refine ⟨hp, hold hk, hout, ?_⟩
      intro hcanc
      obtain ⟨_, hi⟩ := hc hcanc
      cases hi
    · obtain ⟨rfl, rfl⟩ := Prod.mk.injEq _ _ _ _ ▸ List.mem_singleton.mp hmem
      exact ⟨Helper.start c', by simp, rfl, fun h => absurd h (by simp [Helper.start])⟩
  · intro c' hclosed
    obtain ⟨k, hp, hk, hout, hpc⟩ := hinv.closed c' hclosed
    exact ⟨k, hp, hold hk, hout, hpc⟩
  · exact hinv.sent

section HelperMove

variable {loop : LoopPc C E} {sub : List (C × ℕ)} {helpers : List (Helper C E)}
  {chan : C → Chan E} {k : ℕ} {hp hp' : Helper C E}

/-- One helper moves and is not inside of its loop. -/
theorem V2Inv.helper_set (hinv : V2Inv loop sub helpers chan) (hun : hp'.Unserved) :
    ∀ (j : ℕ) (hq : Helper C E), (helpers.set k hp')[j]? = some hq → hq.Unserved := by
  intro j hq hj
  rcases getElem?_set_cases hj with ⟨_, rfl⟩ | ⟨_, hj'⟩
  · exact hun
  · exact hinv.helper j hq hj'

/-- The helper that has closed a channel is still there after one helper moved. -/
theorem V2Inv.closed_set (hinv : V2Inv loop sub helpers chan) (hk : helpers[k]? = some hp)
    (hp' : Helper C E) (hout : hp'.out = hp.out) (hpc : hp.pc = .exited → hp'.pc = .exited)
    {c : C} (hclosed : (chan c).closed = true) :
    ∃ (j : ℕ) (hq : Helper C E), (helpers.set k hp')[j]? = some hq ∧ hq.out = c ∧
      hq.pc = .exited := by
  obtain ⟨j, hq, hj, hqout, hqpc⟩ := hinv.closed c hclosed
  rcases getElem?_set_of_some hp' hk hj with ⟨rfl, rfl, hnew⟩ | ⟨_, hsame⟩
  · exact ⟨j, hp', hnew, hout.trans hqout, hpc hqpc⟩
  · exact ⟨j, hq, hsame, hqout, hqpc⟩

end HelperMove

/-- `loopV2` accepts a cancellation. -/
theorem V2Inv.acceptCancel {sub : List (C × ℕ)} {helpers : List (Helper C E)}
    {chan : C → Chan E} (hinv : V2Inv .select sub helpers chan) {c : C} {k : ℕ}
    {hp : Helper C E} (i : ℕ) (hmem : (c, k) ∈ sub) (hk : helpers[k]? = some hp) :
    V2Inv (.closing i c k) sub (helpers.set k { hp with cancelled := true }) chan := by
  have hbetween : ∀ e rest, (LoopPc.select : LoopPc C E) = .publishing e rest → rest = [] := nofun
  constructor
  · obtain ⟨h1, h2, h3, h4⟩ := hinv.helper k hp hk
    have h5 : hp.accepted = [] := hinv.window_nil hbetween hk
    exact hinv.helper_set ⟨h1, h2, fun _ => rfl, fun _ => h5⟩
  · intro j hp' hj hne
    exact absurd (hinv.window_nil_set hbetween hk hj rfl) hne
  · intro c' j hmem'
    obtain ⟨hp', hj, hout', hc⟩ := hinv.sub c' j hmem'
    rcases getElem?_set_of_some { hp with cancelled := true } hk hj
      with ⟨rfl, rfl, hnew⟩ | ⟨_, hsame⟩
    · -- one helper serves one channel
      obtain ⟨hp'', hk'', hout, _⟩ := hinv.sub c j hmem
      obtain rfl : hp'' = hp' := Option.some.inj (hk''.symm.trans hj)
      obtain rfl : c = c' := hout.symm.trans hout'
      exact ⟨_, hnew, hout, fun _ => ⟨i, rfl⟩⟩
    · refine ⟨hp', hsame, hout', ?_⟩
      intro hcanc
      obtain ⟨_, hi⟩ := hc hcanc
      cases hi
  · exact fun c' hclosed => hinv.closed_set hk { hp with cancelled := true } rfl id hclosed
  · exact hinv.sent

/-- `loopV2` closes the helper's channel and forgets the subscription. -/
theorem V2Inv.closeHelper {sub : List (C × ℕ)} {helpers : List (Helper C E)}
    {chan : C → Chan E} {i k : ℕ} {c : C} [DecidableEq C]
    (hinv : V2Inv (.closing i c k) sub helpers chan) {hp : Helper C E}
    (hk : helpers[k]? = some hp) :
    V2Inv (.replying i true) (sub.filter fun p => p.1 ≠ c)
      (helpers.set k { hp with inClosed := true }) chan := by
  have hbetween : ∀ e rest, (LoopPc.closing i c k : LoopPc C E) = .publishing e rest → rest = [] :=
    nofun
  constructor
  · obtain ⟨h1, h2, h3, h4⟩ := hinv.helper k hp hk
    exact hinv.helper_set ⟨h1, h2, h3, h4⟩
  · intro j hp' hj hne
    exact absurd (hinv.window_nil_set hbetween hk hj rfl) hne
  · intro c' j hmem'
    obtain ⟨hmem', hne⟩ := List.mem_filter.mp hmem'
    obtain ⟨hp', hj, hout, hc⟩ := hinv.sub c' j hmem'
    -- only the subscription of `c` could belong to a cancelled helper
    have hlive : hp'.cancelled = true → False := by
      intro hcanc
      obtain ⟨_, hi⟩ := hc hcanc
      injection hi with _ hcc _
      exact absurd hcc.symm (by simpa using hne)
    rcases getElem?_set_of_some { hp with inClosed := true } hk hj
      with ⟨rfl, rfl, hnew⟩ | ⟨_, hsame⟩
    · exact ⟨_, hnew, hout, fun hcanc => absurd hcanc hlive⟩
    · exact ⟨hp', hsame, hout, fun hcanc => absurd hcanc hlive⟩
  · exact fun c' hclosed => hinv.closed_set hk { hp with inClosed := true } rfl id hclosed
  · exact hinv.sent

/-- A cancelled helper leaves its loop and closes its subscriber's channel. -/
theorem V2Inv.helperExit {loop : LoopPc C E} {sub : List (C × ℕ)} {helpers : List (Helper C E)}
    {chan : C → Chan E} [DecidableEq C] (hinv : V2Inv loop sub helpers chan) {k : ℕ}
    {hp : Helper C E} (hk : helpers[k]? = some hp) (hcanc : hp.cancelled = true) :
    V2Inv loop sub (helpers.set k { hp with pc := .exited })
      (Function.update chan hp.out { chan hp.out with closed := true }) := by
  constructor
  · obtain ⟨h1, h2, h3, h4⟩ := hinv.helper k hp hk
    exact hinv.helper_set ⟨h1, by simp, fun _ => hcanc, h4⟩
  · intro j hp' hj hne
    rcases getElem?_set_cases hj with ⟨rfl, rfl⟩ | ⟨_, hj'⟩
    · exact hinv.window j hp hk hne
    · exact hinv.window j hp' hj' hne
  · intro c j hmem
    obtain ⟨hp', hj, hout, hc⟩ := hinv.sub c j hmem
    rcases getElem?_set_of_some { hp with pc := HelperPc.exited } hk hj
      with ⟨rfl, rfl, hnew⟩ | ⟨_, hsame⟩
    · exact ⟨_, hnew, hout, hc⟩
    · exact ⟨hp', hsame, hout, hc⟩
  · intro c hclosed
    -- the channel just closed, or one closed before
    by_cases hout : c = hp.out
    · exact ⟨k, _, List.getElem?_set_self (List.getElem?_eq_some_iff.mp hk).1, hout.symm, rfl⟩
    · rw [Function.update_of_ne hout] at hclosed
      exact hinv.closed_set hk { hp with pc := .exited } rfl (fun _ => rfl) hclosed
  · intro c
    by_cases hout : c = hp.out
    · subst hout
      rw [Function.update_self]
      exact hinv.sent hp.out
    · rw [Function.update_of_ne hout]
      exact hinv.sent c

theorem mem_of_lookup [DecidableEq C] {sub : List (C × ℕ)} {c : C} {k : ℕ}
    (h : sub.lookup c = some k) : (c, k) ∈ sub := by
  induction sub with
  | nil => exact absurd h (by simp)
  | cons p sub ih =>
      rw [List.lookup_cons] at h
      split at h
      next heq =>
        have hc : c = p.1 := by simpa using heq
        have hk : p.2 = k := Option.some.inj h
        rw [hc, ← hk]
        exact List.mem_cons_self
      next => exact List.mem_cons_of_mem p (ih h)

/-- **One step without an early exit keeps the invariant.** -/
theorem V2Inv.step [DecidableEq C] {s s' : ServerV2 C E}
    (hinv : V2Inv s.loop s.sub s.helpers s.chan) (hstep : V2Step s s')
    (hearly : ¬ EarlyExit s s') : V2Inv s'.loop s'.sub s'.helpers s'.chan := by
  -- no helper is inside its loop, and the loop condition is false
  have hselect : ∀ {k : ℕ} {hp : Helper C E}, s.helpers[k]? = some hp → hp.pc ≠ .select :=
    fun hk => (hinv.helper _ _ hk).pc
  cases hstep with
  | callPublish i e h => exact hinv
  | callSubscribe i c h => exact hinv
  | callCancel i c h => exact hinv
  | acceptPublish i e h hl =>
      rw [hl] at hinv
      exact hinv.acceptPublish e
  | acceptSubscribe i c h hl hsub =>
      rw [hl] at hinv
      exact hinv.acceptSubscribe c i
  | rejectSubscribe i k c h hl hsub =>
      rw [hl] at hinv
      exact hinv.loopMove (fun _ _ h => by cases h) (fun _ _ _ h => by cases h)
  | acceptCancel i k c hp h hl hsub hk =>
      rw [hl] at hinv
      exact hinv.acceptCancel i (mem_of_lookup hsub) hk
  | rejectCancel i c h hl hsub =>
      rw [hl] at hinv
      exact hinv.loopMove (fun _ _ h => by cases h) (fun _ _ _ h => by cases h)
  | closeHelper i k c hp hl hk =>
      rw [hl] at hinv
      exact hinv.closeHelper hk
  | reply i ok h hl =>
      rw [hl] at hinv
      exact hinv.loopMove (fun _ _ h => by cases h) (fun _ _ _ h => by cases h)
  | publishEnd e hl =>
      rw [hl] at hinv
      exact hinv.loopMove (fun _ _ h => by injection h with _ h; exact h.symm)
        (fun _ _ _ h => by cases h)
  -- nobody is ever at the `select` of `helperV3`
  | handOver e rest k hp hl hmem hk hpc hnil hopen => exact absurd hpc (hselect hk)
  | handOverClosed e rest k hp hl hmem hk hclosed => exact hinv
  | helperEnter k hp hk hpc hcont =>
      -- the queue is empty, so the loop is not entered
      rw [Helper.continues, (hinv.helper k hp hk).q] at hcont
      exact absurd hcont (by simp)
  | helperExit k hp hk hpc hcont hopen =>
      -- otherwise this would be an early exit
      have hcanc : hp.cancelled = true := by
        by_contra hnot
        refine hearly ⟨k, hp, hk, by simpa using hnot, hcont, hp, _, hk,
          List.getElem?_set_self (List.getElem?_eq_some_iff.mp hk).1, hpc, ?_⟩
        simp
      exact hinv.helperExit hk hcanc
  | helperExitClosed k hp hk hpc hcont hclosed => exact hinv
  | helperIn k hp hk hpc hnil hclosed => exact absurd hpc (hselect hk)
  | deliver k hp e rest hk hpc hq hopen => exact absurd hpc (hselect hk)
  | deliverClosed k hp hk hpc hq hclosed => exact hinv

/-! ## §4. Whole runs. -/

theorem serverV2_invariant [DecidableEq C] {s : ServerV2 C E}
    (hs : ((serverV2System C E).restrict (fun s s' => ¬ EarlyExit s s')).Reachable s) :
    V2Inv s.loop s.sub s.helpers s.chan := by
  refine hs.invariant (I := fun s => V2Inv s.loop s.sub s.helpers s.chan) ?_ ?_
  · intro s h0
    obtain ⟨_, hl, hsub, hh, hc, _⟩ := h0
    rw [hl, hsub, hh, hc]
    constructor
    · intro k hp hk
      simp at hk
    · intro k hp hk
      simp at hk
    · intro c k hmem
      simp at hmem
    · intro c hclosed
      simp at hclosed
    · intro c
      rfl
  · intro s s' _ hinv hstep
    exact hinv.step hstep.1 hstep.2

/-- A helper whose loop condition is false closes its subscriber's channel when it is
scheduled. -/
theorem V2Step.exit_closes [DecidableEq C] {s s' : ServerV2 C E} (hstep : V2Step s s') {k : ℕ}
    {hp : Helper C E} (hk : s.helpers[k]? = some hp) (hcont : hp.continues = false)
    (hsched : Scheduled s s' k) :
    ∃ hp', s'.helpers[k]? = some hp' ∧ (s'.chan hp'.out).closed = true ∧
      hp'.cancelled = hp.cancelled := by
  obtain ⟨hp₀, hp', hk₀, hk', hpc, hpc'⟩ := hsched
  obtain rfl : hp₀ = hp := Option.some.inj (hk₀.symm.trans hk)
  refine ⟨hp', hk', ?_⟩
  -- a step that does not touch the helper's program counter does not schedule it
  have hsame : hp'.pc = hp₀.pc → False := fun h => hpc' (h.trans hpc)
  have hkept : s'.helpers = s.helpers → False := by
    intro h
    rw [h, hk] at hk'
    exact hsame (congrArg Helper.pc (Option.some.inj hk').symm)
  -- nor does a step of another helper, or one that comes back to the loop condition
  have hset : ∀ {j : ℕ} {x y : Helper C E}, s.helpers[j]? = some x →
      s'.helpers = s.helpers.set j y →
      (y.pc = x.pc ∨ y.pc = .test ∨ x.continues = true) → False := by
    intro j x y hj hset hy
    rw [hset] at hk'
    rcases getElem?_set_cases hk' with ⟨rfl, rfl⟩ | ⟨_, hold⟩
    · obtain rfl : hp₀ = x := Option.some.inj (hk.symm.trans hj)
      rcases hy with hy | hy | hy
      · exact hsame hy
      · exact hpc' hy
      · rw [hcont] at hy
        cases hy
    · rw [hk] at hold
      exact hsame (congrArg Helper.pc (Option.some.inj hold).symm)
  cases hstep with
  | callPublish i e h => exact (hkept rfl).elim
  | callSubscribe i c h => exact (hkept rfl).elim
  | callCancel i c h => exact (hkept rfl).elim
  | acceptPublish i e h hl =>
      obtain ⟨x, hx, hif⟩ := getElem?_acceptEvent hk'
      obtain rfl : hp₀ = x := Option.some.inj (hk.symm.trans hx)
      refine (hsame ?_).elim
      rw [hif]
      split <;> rfl
  | acceptSubscribe i c h hl hsub =>
      refine (hsame ?_).elim
      rw [List.getElem?_append_left (List.getElem?_eq_some_iff.mp hk).1, hk] at hk'
      rw [Option.some.inj hk']
  | rejectSubscribe i j c h hl hsub => exact (hkept rfl).elim
  | acceptCancel i j c x h hl hsub hj => exact (hset hj rfl (Or.inl rfl)).elim
  | rejectCancel i c h hl hsub => exact (hkept rfl).elim
  | closeHelper i j c x hl hj => exact (hset hj rfl (Or.inl rfl)).elim
  | reply i ok h hl => exact (hkept rfl).elim
  | publishEnd e hl => exact (hkept rfl).elim
  | handOver e rest j x hl hmem hj hx hnil hopen => exact (hset hj rfl (Or.inr (Or.inl rfl))).elim
  | handOverClosed e rest j x hl hmem hj hclosed => exact (hkept rfl).elim
  | helperEnter j x hj hx hloop => exact (hset hj rfl (Or.inr (Or.inr hloop))).elim
  | helperExit j x hj hx hleave hopen =>
      rcases getElem?_set_cases hk' with ⟨rfl, rfl⟩ | ⟨_, hold⟩
      · obtain rfl : hp₀ = x := Option.some.inj (hk.symm.trans hj)
        refine ⟨?_, rfl⟩
        show (Function.update s.chan hp₀.out _ hp₀.out).closed = true
        rw [Function.update_self]
      · rw [hk] at hold
        exact (hsame (congrArg Helper.pc (Option.some.inj hold).symm)).elim
  | helperExitClosed j x hj hx hleave hclosed => exact (hkept rfl).elim
  | helperIn j x hj hx hnil hclosed => exact (hset hj rfl (Or.inr (Or.inl rfl))).elim
  | deliver j x e rest hj hx hq hopen => exact (hset hj rfl (Or.inr (Or.inl rfl))).elim
  | deliverClosed j x hj hx hq hclosed => exact (hkept rfl).elim

/-- **When the law of `PubSub` holds.**  In every run in which no helper is scheduled with a
false loop condition before its `Cancel` is accepted, it holds in every state reached, for
every channel subscribed once; and a step that does schedule such a helper ends in a state
that breaks it. -/
theorem serverV2_law (C E : Type) [DecidableEq C] :
    (∀ s : ServerV2 C E,
      ((serverV2System C E).restrict (fun s s' => ¬ EarlyExit s s')).Reachable s →
      ∀ (k : ℕ) (hp : Helper C E), SubscribedOnce s k hp → Lawful s hp) ∧
    ∀ s s' : ServerV2 C E, V2Step s s' → EarlyExit s s' →
      ∃ (k : ℕ) (hp : Helper C E), s'.helpers[k]? = some hp ∧ ¬ Lawful s' hp := by
  constructor
  · intro s hs k hp honce
    exact (serverV2_invariant hs).lawful honce
  · intro s s' hstep hearly
    obtain ⟨k, hp, hk, hlive, hcont, hsched⟩ := hearly
    -- the helper closes a channel that was never cancelled
    obtain ⟨hp', hk', hclosed, hcanc⟩ := hstep.exit_closes hk hcont hsched
    refine ⟨k, hp', hk', ?_⟩
    intro hlaw
    have := (hlaw.2 hclosed).1
    rw [hcanc, hlive] at this
    exact absurd this (by simp)

/-- One caller, before anything happened. -/
def oneCaller : ServerV2 ℕ ℕ where
  callers := [.idle]
  loop := .select
  sub := []
  helpers := []
  chan := fun _ => ⟨[], false⟩
  crashed := false

theorem oneCaller_init : (serverV2System ℕ ℕ).init oneCaller := by
  refine ⟨?_, rfl, rfl, rfl, rfl, rfl⟩
  intro pc hpc
  exact List.mem_singleton.mp hpc

/-- A channel is subscribed and cancelled, and then its helper is scheduled. -/
theorem serverV2_law_lateHelper :
    ∃ s, ((serverV2System ℕ ℕ).restrict (fun s s' => ¬ EarlyExit s s')).Reachable s ∧
      (s.chan 7).closed = true ∧ ∃ hp, SubscribedOnce s 0 hp ∧ Lawful s hp := by
  let M := (serverV2System ℕ ℕ).restrict (fun s s' => ¬ EarlyExit s s')
  -- a step after which every helper is still at its loop condition
  have hquiet : ∀ {s s' : ServerV2 ℕ ℕ}, M.Reachable s → V2Step s s' →
      (∀ hp ∈ s'.helpers, hp.pc = .test) → M.Reachable s' := by
    intro s s' hr hstep hpc
    refine hr.tail ⟨hstep, ?_⟩
    rintro ⟨k, hp, -, -, -, -, hp', -, hk', -, hne⟩
    exact hne (hpc hp' (List.mem_of_getElem? hk'))
  have h0 : M.Reachable oneCaller := System.Reachable.of_init oneCaller_init
  have h1 := hquiet (hquiet (hquiet h0 (.callSubscribe 0 7 rfl) (by simp [oneCaller]))
    (.acceptSubscribe 0 7 rfl rfl rfl) (by simp [oneCaller, Helper.start]))
    (.reply 0 true rfl rfl) (by simp [oneCaller, Helper.start])
  have h2 := hquiet (hquiet (hquiet h1 (.callCancel 0 7 rfl) (by simp [oneCaller, Helper.start]))
    (.acceptCancel 0 0 7 _ rfl rfl rfl rfl) (by simp [oneCaller, Helper.start]))
    (.closeHelper 0 0 7 _ rfl rfl) (by simp [oneCaller, Helper.start])
  have h3 := h2.tail ⟨.helperExit 0 _ rfl rfl rfl rfl, by
    rintro ⟨k, hp, hk, hlive, -, -⟩
    cases k with
    | zero =>
        rw [← Option.some.inj hk] at hlive
        exact absurd hlive (by simp)
    | succ k => simp [oneCaller] at hk⟩
  refine ⟨_, h3, rfl,
    { Helper.start 7 with pc := .exited, inClosed := true, cancelled := true }, ?_,
    (serverV2_law ℕ ℕ).1 _ h3 0 _ ?_⟩
  all_goals
    refine ⟨rfl, ?_⟩
    intro j hp' hj _
    cases j with
    | zero => rfl
    | succ j => simp [oneCaller] at hj

/-- **A helper that is scheduled at once** closes its channel although no `Cancel` was ever
called. -/
theorem serverV2_closes_early :
    ¬ ∀ s, (serverV2System ℕ ℕ).Reachable s → ∀ (k : ℕ) (hp : Helper ℕ ℕ),
      SubscribedOnce s k hp → Lawful s hp := by
  intro hall
  have h0 : (serverV2System ℕ ℕ).Reachable oneCaller := System.Reachable.of_init oneCaller_init
  have h1 := ((h0.tail (V2Step.callSubscribe 0 7 rfl)).tail
    (V2Step.acceptSubscribe 0 7 rfl rfl rfl)).tail (V2Step.helperExit 0 _ rfl rfl rfl rfl)
  have hlaw := hall _ h1 0 { Helper.start 7 with pc := .exited } ⟨rfl, by
    intro j hp' hj _
    cases j with
    | zero => rfl
    | succ j => simp [oneCaller] at hj⟩
  exact absurd (hlaw.2 rfl).1 (by simp [Helper.start])

end ComputerScience.PubSub
