/-
  ComputerScience.PubSub.ServerV1Law
  ──────────────────────────────────
  **THE LAW OF `PubSub` FOR `ServerV1`, AND WHEN ITS SUBSCRIBERS ARE OPEN.**

  What was sent on `c` is `window c` of the calls in the order of their `Lock`, the last event
  possibly missing while its `Publish` is in its loop (`serverV1_law`).  This needs that no
  channel is subscribed again after it was cancelled: `Cancel` closes the channel for good and
  `Subscribe` does not see that (`serverV1_open`, `serverV1_resubscribed`).

  The invariant is an account of the one goroutine that holds the mutex: which call it still
  has to apply to `s.sub`, and which channels it still owes an event.
-/
import ComputerScience.PubSub.ServerV1

namespace ComputerScience.PubSub

open ComputerScience.Lib
open scoped List

variable {C E : Type} [DecidableEq C]

/-! ## §1. The invariant. -/

/-- Between the `s.mu.Lock()` and the `s.mu.Unlock()` of a call. -/
def V1Pc.inside : V1Pc C E → Bool
  | .idle | .locking _ | .panicked _ => false
  | .sending _ _ _ | .subscribing _ | .cancelling _ | .deleting _ | .unlocking _ => true

/-- The call whose effect on `s.sub` is still to come. -/
def V1Pc.todo : V1Pc C E → List (V1Call C E)
  | .subscribing c => [.subscribe c]
  | .cancelling c => [.cancel c]
  | .deleting c => [.cancel (some c)]
  | _ => []

/-- The event that is still to be sent on `c`. -/
def V1Pc.owed (c : Option C) : V1Pc C E → List (ℕ × E)
  | .sending k e rest => if c ∈ rest then [(k, e)] else []
  | _ => []

/-- The panic is not about a closed channel. -/
def V1Panic.onOpen : V1Panic → Bool
  | .sendOnClosedChannel | .closeOfClosedChannel => false
  | .alreadySubscribed | .notSubscribed | .closeOfNilChannel => true

/-- The panic of the call. -/
def V1Pc.panic : V1Pc C E → Option V1Panic
  | .unlocking p => p
  | .panicked p => some p
  | _ => none

/-- The call has not changed `s.sub`: it is before its change, or it panicked. -/
def V1Pc.unchanged : V1Pc C E → Bool
  | .subscribing _ | .cancelling _ | .deleting _ | .unlocking (some _) => true
  | _ => false

/-- What the goroutine that holds the mutex has done so far, and still has to do. -/
structure V1Account (pc : V1Pc C E) (sub : Finset (Option C)) (chan : Option C → V1Chan E)
    (calls : List (V1Call C E)) (atLock : Finset (Option C)) : Prop where
  keys : ∃ done, calls = done ++ pc.todo ∧ sub = subscribers done
  sent : ∀ c, window c calls = (chan c).sent ++ pc.owed c
  owed : ∀ c, pc.owed c ≠ [] → c ∈ sub
  closed : ∀ c, (chan c).closed = true → c ∈ sub → ∃ d, c = some d ∧ pc = .deleting d
  cancelled : ∀ c, (chan c).closed = true → .cancel c ∈ calls
  kept : pc.unchanged = true → sub = atLock

/-- Where the goroutine that holds the mutex is; idle when the mutex is free. -/
def ServerV1.holder (s : ServerV1 C E) : V1Pc C E :=
  match s.mu with
  | none => .idle
  | some i => s.callers[i]?.getD .idle

/-- The invariant of the runs without a second subscription. -/
structure V1Inv (s : ServerV1 C E) : Prop where
  mutex : ∀ (i : ℕ) (pc : V1Pc C E), s.callers[i]? = some pc → (pc.inside = true ↔ s.mu = some i)
  account : V1Account s.holder s.sub s.chan s.calls s.atLock
  quiet : ∀ (i : ℕ) (pc : V1Pc C E), s.callers[i]? = some pc →
    pc.panic.all V1Panic.onOpen = true

omit [DecidableEq C] in
theorem ServerV1.holder_mem (s : ServerV1 C E) (hne : s.holder ≠ .idle) :
    ∃ i : ℕ, s.callers[i]? = some s.holder := by
  unfold ServerV1.holder at hne ⊢
  cases hmu : s.mu with
  | none =>
      rw [hmu] at hne
      exact absurd rfl hne
  | some i =>
      rw [hmu] at hne
      dsimp only at hne ⊢
      refine ⟨i, ?_⟩
      cases hi : s.callers[i]? with
      | none =>
          rw [hi] at hne
          exact absurd rfl hne
      | some pc => rfl

theorem V1Inv.holder_eq {s : ServerV1 C E} (hinv : V1Inv s) {i : ℕ} {pc : V1Pc C E}
    (h : s.callers[i]? = some pc) (hin : pc.inside = true) : s.mu = some i ∧ s.holder = pc := by
  have hmu : s.mu = some i := (hinv.mutex i pc h).mp hin
  refine ⟨hmu, ?_⟩
  unfold ServerV1.holder
  rw [hmu]
  show s.callers[i]?.getD .idle = pc
  rw [h]
  rfl

/-- **A step of the goroutine that holds the mutex**, which keeps it. -/
theorem V1Inv.insideStep {s s' : ServerV1 C E} (hinv : V1Inv s) {i : ℕ} {pc pc' : V1Pc C E}
    (h : s.callers[i]? = some pc) (hin : pc.inside = true) (hin' : pc'.inside = true)
    (hcallers : s'.callers = s.callers.set i pc') (hmu' : s'.mu = s.mu)
    (hacc : V1Account pc s.sub s.chan s.calls s.atLock →
      V1Account pc' s'.sub s'.chan s'.calls s'.atLock)
    (hquiet : pc'.panic.all V1Panic.onOpen = true) :
    V1Inv s' := by
  obtain ⟨hmu, hholder⟩ := hinv.holder_eq h hin
  have hlt : i < s.callers.length := (List.getElem?_eq_some_iff.mp h).1
  constructor
  · intro j pc₁ hj
    rw [hcallers] at hj
    rw [hmu', hmu]
    rcases getElem?_set_cases hj with ⟨rfl, rfl⟩ | ⟨hne, hj⟩
    · simp [hin']
    · rw [hinv.mutex j pc₁ hj, hmu]
  · have hholder' : s'.holder = pc' := by
      unfold ServerV1.holder
      rw [hmu', hmu, hcallers]
      show (s.callers.set i pc')[i]?.getD .idle = pc'
      rw [List.getElem?_set_self hlt]
      rfl
    rw [hholder']
    exact hacc (hholder ▸ hinv.account)
  · intro j pc₁ hj
    rw [hcallers] at hj
    rcases getElem?_set_cases hj with ⟨-, rfl⟩ | ⟨-, hj⟩
    · exact hquiet
    · exact hinv.quiet j pc₁ hj

/-- A step of a goroutine outside of the mutex, which stays outside. -/
theorem V1Inv.outsideStep {s : ServerV1 C E} (hinv : V1Inv s) {i : ℕ} {pc pc' : V1Pc C E}
    (h : s.callers[i]? = some pc) (hout : pc.inside = false) (hout' : pc'.inside = false)
    (hquiet : pc'.panic = none) : V1Inv { s with callers := s.callers.set i pc' } := by
  have hmu : s.mu ≠ some i := by
    intro hmu
    rw [(hinv.mutex i pc h).mpr hmu] at hout
    cases hout
  constructor
  · intro j pc₁ hj
    show pc₁.inside = true ↔ s.mu = some j
    rcases getElem?_set_cases hj with ⟨rfl, rfl⟩ | ⟨-, hj⟩
    · simp [hout', hmu]
    · exact hinv.mutex j pc₁ hj
  · have hholder : ({ s with callers := s.callers.set i pc' } : ServerV1 C E).holder = s.holder := by
      unfold ServerV1.holder
      cases hm : s.mu with
      | none => rfl
      | some j =>
          have hji : i ≠ j := fun e => hmu (by rw [hm, e])
          show (s.callers.set i pc')[j]?.getD .idle = s.callers[j]?.getD .idle
          rw [List.getElem?_set_ne hji]
    rw [hholder]
    exact hinv.account
  · intro j pc₁ hj
    rcases getElem?_set_cases hj with ⟨-, rfl⟩ | ⟨-, hj⟩
    · rw [hquiet]
      rfl
    · exact hinv.quiet j pc₁ hj

/-! ## §2. What the goroutine that holds the mutex does. -/

section Account

variable {sub atLock : Finset (Option C)} {chan : Option C → V1Chan E}
  {calls : List (V1Call C E)}

/-- `s.mu.Lock()`: the call is the next one in the order of the calls. -/
theorem V1Account.lock (hacc : V1Account .idle sub chan calls atLock) (call : V1Call C E) :
    V1Account (call.enter calls.length sub) sub chan (calls ++ [call]) sub := by
  obtain ⟨done, hcalls, hsub⟩ := hacc.keys
  have hcalls : calls = done := by rw [hcalls]; exact List.append_nil done
  subst hcalls
  have hsent : ∀ c, window c calls = (chan c).sent := by
    intro c
    rw [hacc.sent c]
    exact List.append_nil _
  constructor
  · cases call with
    | publish e =>
        refine ⟨calls ++ [.publish e], (List.append_nil _).symm, ?_⟩
        rw [subscribers_concat, hsub]
        rfl
    | subscribe c => exact ⟨calls, rfl, hsub⟩
    | cancel c => exact ⟨calls, rfl, hsub⟩
  · intro c
    rw [window_concat, hsent c, ← hsub]
    cases call with
    | publish e => rfl
    | subscribe d => rfl
    | cancel d => rfl
  · intro c howed
    cases call with
    | publish e =>
        by_contra hc
        exact howed (if_neg hc)
    | subscribe d => exact absurd rfl howed
    | cancel d => exact absurd rfl howed
  · intro c hclosed hc
    obtain ⟨d, -, hd⟩ := hacc.closed c hclosed hc
    cases hd
  · intro c hclosed
    exact List.mem_append_left _ (hacc.cancelled c hclosed)
  · intro _
    rfl

/-- `c <- e` for one of the remaining channels. -/
theorem V1Account.send {k : ℕ} {e : E} {rest : Finset (Option C)} {c : Option C}
    {ch : V1Chan E} (hacc : V1Account (.sending k e rest) sub chan calls atLock) (hc : c ∈ rest)
    (hsent : ch.sent = (chan c).sent ++ [(k, e)]) (hclosed : ch.closed = (chan c).closed) :
    V1Account (.sending k e (rest.erase c)) sub (Function.update chan c ch) calls atLock := by
  have hcl : ∀ d, (Function.update chan c ch d).closed = (chan d).closed := by
    intro d
    by_cases hd : d = c
    · rw [hd, Function.update_self, hclosed]
    · rw [Function.update_of_ne hd]
  constructor
  · exact hacc.keys
  · intro d
    rw [hacc.sent d]
    by_cases hd : d = c
    · subst hd
      rw [Function.update_self, hsent]
      simp [V1Pc.owed, hc]
    · rw [Function.update_of_ne hd]
      simp [V1Pc.owed, Finset.mem_erase, hd]
  · intro d howed
    apply hacc.owed d
    intro hnil
    apply howed
    by_cases hd : d ∈ rest
    · simp [V1Pc.owed, hd] at hnil
    · simp [V1Pc.owed, hd]
  · intro d hd hsub
    rw [hcl d] at hd
    obtain ⟨d', -, hpc⟩ := hacc.closed d hd hsub
    cases hpc
  · intro d hd
    rw [hcl d] at hd
    exact hacc.cancelled d hd
  · intro h
    cases h

/-- **The call is finished** and its effect on `s.sub` is in place: the range loop is done,
the method has returned from its body, or a check failed and the keys stay as they are. -/
theorem V1Account.finish {pc : V1Pc C E} {sub' : Finset (Option C)} {panic : Option V1Panic}
    (hacc : V1Account pc sub chan calls atLock) (howed : ∀ c, pc.owed c = [])
    (hsub : sub' = pc.todo.foldl V1Call.apply sub)
    (hclosed : ∀ c, (chan c).closed = true → c ∉ sub')
    (hkept : panic.isSome = true → sub' = atLock) :
    V1Account (.unlocking panic) sub' chan calls atLock := by
  constructor
  · obtain ⟨done, hcalls, hdone⟩ := hacc.keys
    refine ⟨calls, (List.append_nil _).symm, ?_⟩
    rw [hsub, hdone, hcalls]
    exact List.foldl_append.symm
  · intro c
    rw [hacc.sent c, howed c]
    rfl
  · intro c h
    exact absurd rfl h
  · intro c hc hsub
    exact absurd hsub (hclosed c hc)
  · exact hacc.cancelled
  · intro h
    cases panic with
    | none => cases h
    | some p => exact hkept rfl

/-- `close(c)` -/
theorem V1Account.close {c : C} (hacc : V1Account (.cancelling (some c)) sub chan calls atLock) :
    V1Account (.deleting c) sub
      (Function.update chan (some c) { chan (some c) with closed := true }) calls atLock := by
  have hcall : V1Call.cancel (some c) ∈ calls := by
    obtain ⟨done, hcalls, -⟩ := hacc.keys
    rw [hcalls]
    exact List.mem_append_right _ (List.mem_singleton.mpr rfl)
  constructor
  · exact hacc.keys
  · intro d
    rw [hacc.sent d]
    by_cases hd : d = some c
    · rw [hd, Function.update_self]
      rfl
    · rw [Function.update_of_ne hd]
      rfl
  · intro d h
    exact absurd rfl h
  · intro d hd hsub
    by_cases hdc : d = some c
    · exact ⟨c, hdc, rfl⟩
    · rw [Function.update_of_ne hdc] at hd
      obtain ⟨d', -, hpc⟩ := hacc.closed d hd hsub
      cases hpc
  · intro d hd
    by_cases hdc : d = some c
    · rw [hdc]
      exact hcall
    · rw [Function.update_of_ne hdc] at hd
      exact hacc.cancelled d hd
  · intro _
    exact hacc.kept rfl

/-- `s.mu.Unlock()` -/
theorem V1Account.unlock {panic : Option V1Panic}
    (hacc : V1Account (.unlocking panic) sub chan calls atLock) :
    V1Account .idle sub chan calls atLock := by
  constructor
  · exact hacc.keys
  · exact hacc.sent
  · exact hacc.owed
  · intro c hc hsub
    obtain ⟨d, -, hpc⟩ := hacc.closed c hc hsub
    cases hpc
  · exact hacc.cancelled
  · intro h
    cases h

/-- A receive changes neither what was sent nor which channels are closed. -/
theorem V1Account.receive {pc : V1Pc C E} (hacc : V1Account pc sub chan calls atLock)
    (c : Option C) (n : ℕ) :
    V1Account pc sub (Function.update chan c { chan c with taken := n }) calls atLock := by
  have hch : ∀ d, (Function.update chan c { chan c with taken := n } d).sent = (chan d).sent ∧
      (Function.update chan c { chan c with taken := n } d).closed = (chan d).closed := by
    intro d
    by_cases hd : d = c
    · rw [hd, Function.update_self]
      exact ⟨rfl, rfl⟩
    · rw [Function.update_of_ne hd]
      exact ⟨rfl, rfl⟩
  constructor
  · exact hacc.keys
  · intro d
    rw [(hch d).1]
    exact hacc.sent d
  · exact hacc.owed
  · intro d hd
    rw [(hch d).2] at hd
    exact hacc.closed d hd
  · intro d hd
    rw [(hch d).2] at hd
    exact hacc.cancelled d hd
  · exact hacc.kept

end Account

/-! ## §3. One step, and every run. -/

omit [DecidableEq C] in
theorem V1Call.enter_inside (call : V1Call C E) (k : ℕ) (sub : Finset (Option C)) :
    (call.enter k sub).inside = true ∧ (call.enter k sub).panic = none := by
  cases call with
  | publish e => exact ⟨rfl, rfl⟩
  | subscribe c => exact ⟨rfl, rfl⟩
  | cancel c => exact ⟨rfl, rfl⟩

theorem V1Inv.lockStep {s : ServerV1 C E} (hinv : V1Inv s) {i : ℕ} {call : V1Call C E}
    (h : s.callers[i]? = some (.locking call)) (hmu : s.mu = none) :
    V1Inv ({ s with
      callers := s.callers.set i (call.enter s.calls.length s.sub)
      mu := some i
      calls := s.calls ++ [call]
      atLock := s.sub } : ServerV1 C E) := by
  have hlt : i < s.callers.length := (List.getElem?_eq_some_iff.mp h).1
  obtain ⟨hin, hpanic⟩ := call.enter_inside s.calls.length s.sub
  constructor
  · intro j pc hj
    show pc.inside = true ↔ some i = some j
    rcases getElem?_set_cases hj with ⟨rfl, rfl⟩ | ⟨hne, hj⟩
    · simp [hin]
    · rw [hinv.mutex j pc hj, hmu]
      simp [Ne.symm hne]
  · have hidle : s.holder = .idle := by
      unfold ServerV1.holder
      rw [hmu]
    have hacc : V1Account .idle s.sub s.chan s.calls s.atLock := hidle ▸ hinv.account
    show V1Account ((s.callers.set i _)[i]?.getD .idle) s.sub s.chan (s.calls ++ [call]) s.sub
    rw [List.getElem?_set_self hlt]
    exact hacc.lock call
  · intro j pc hj
    rcases getElem?_set_cases hj with ⟨-, rfl⟩ | ⟨-, hj⟩
    · rw [hpanic]
      rfl
    · exact hinv.quiet j pc hj

theorem V1Inv.unlockStep {s : ServerV1 C E} (hinv : V1Inv s) {i : ℕ} {p : Option V1Panic}
    (h : s.callers[i]? = some (.unlocking p)) :
    V1Inv ({ s with callers := s.callers.set i (.leave p), mu := none } : ServerV1 C E) := by
  obtain ⟨hmu, hholder⟩ := hinv.holder_eq h rfl
  constructor
  · intro j pc hj
    show pc.inside = true ↔ none = some j
    rcases getElem?_set_cases hj with ⟨rfl, rfl⟩ | ⟨hne, hj⟩
    · cases p with
      | none => simp [V1Pc.leave, V1Pc.inside]
      | some p => simp [V1Pc.leave, V1Pc.inside]
    · rw [hinv.mutex j pc hj, hmu]
      simp [Ne.symm hne]
  · have hacc : V1Account (.unlocking p) s.sub s.chan s.calls s.atLock := hholder ▸ hinv.account
    exact hacc.unlock
  · intro j pc hj
    rcases getElem?_set_cases hj with ⟨-, rfl⟩ | ⟨-, hj⟩
    · have hq := hinv.quiet i _ h
      cases p with
      | none => rfl
      | some p => exact hq
    · exact hinv.quiet j pc hj

/-- A channel that is closed and subscribed is in the hands of its `Cancel`. -/
theorem V1Account.not_closed {pc : V1Pc C E} {sub atLock : Finset (Option C)}
    {chan : Option C → V1Chan E} {calls : List (V1Call C E)}
    (hacc : V1Account pc sub chan calls atLock) (hpc : ∀ d, pc ≠ .deleting d) :
    ∀ c, (chan c).closed = true → c ∉ sub := by
  intro c hclosed hsub
  obtain ⟨d, -, hd⟩ := hacc.closed c hclosed hsub
  exact hpc d hd

/-- **One step** that subscribes no closed channel keeps the invariant. -/
theorem V1Inv.step {cap : C → ℕ} {s s' : ServerV1 C E} (hinv : V1Inv s) (hs : V1Step cap s s')
    (hno : NoResubscription s s') : V1Inv s' := by
  cases hs with
  | call i call h => exact hinv.outsideStep h rfl rfl rfl
  | lock i call h hmu => exact hinv.lockStep h hmu
  | send i k e rest c h hc hopen hroom =>
      exact hinv.insideStep h rfl rfl rfl rfl (fun hacc => hacc.send hc rfl rfl) rfl
  | sendReceive i k e rest c h hc hopen hempty =>
      exact hinv.insideStep h rfl rfl rfl rfl (fun hacc => hacc.send hc rfl rfl) rfl
  | sendClosed i k e rest c h hc hclosed =>
      -- the channels still to be served are subscribed, hence open
      have hacc := (hinv.holder_eq h rfl).2 ▸ hinv.account
      have hsub : some c ∈ s.sub := hacc.owed (some c) (by simp [V1Pc.owed, hc])
      exact absurd hsub (hacc.not_closed (fun d hd => by cases hd) (some c) hclosed)
  | publishEnd i k e h =>
      refine hinv.insideStep h rfl rfl rfl rfl (fun hacc => ?_) rfl
      exact hacc.finish (fun c => by simp [V1Pc.owed]) rfl
        (hacc.not_closed (fun d hd => by cases hd)) (fun h => by cases h)
  | subscribe i c h hsub =>
      refine hinv.insideStep h rfl rfl rfl rfl (fun hacc => ?_) rfl
      refine hacc.finish (fun c => rfl) rfl (fun d hclosed hd => ?_) (fun h => by cases h)
      rcases Finset.mem_insert.mp hd with rfl | hd
      · rw [hno d (Finset.mem_insert_self d s.sub) hsub] at hclosed
        cases hclosed
      · exact hacc.not_closed (fun d hd => by cases hd) d hclosed hd
  | subscribePanic i c h hsub =>
      refine hinv.insideStep h rfl rfl rfl rfl (fun hacc => ?_) rfl
      exact hacc.finish (fun c => rfl) (Finset.insert_eq_of_mem hsub).symm
        (hacc.not_closed (fun d hd => by cases hd)) (fun _ => hacc.kept rfl)
  | cancelPanic i c h hsub =>
      refine hinv.insideStep h rfl rfl rfl rfl (fun hacc => ?_) rfl
      refine hacc.finish (fun c => rfl) ?_
        (hacc.not_closed (fun d hd => by cases hd)) (fun _ => hacc.kept rfl)
      cases c with
      | none => rfl
      | some c => exact (Finset.erase_eq_of_notMem hsub).symm
  | closeNil i h hsub =>
      refine hinv.insideStep h rfl rfl rfl rfl (fun hacc => ?_) rfl
      exact hacc.finish (fun c => rfl) rfl
        (hacc.not_closed (fun d hd => by cases hd)) (fun _ => hacc.kept rfl)
  | closeClosed i c h hsub hclosed =>
      have hacc := (hinv.holder_eq h rfl).2 ▸ hinv.account
      exact absurd hsub (hacc.not_closed (fun d hd => by cases hd) (some c) hclosed)
  | close i c h hsub hopen =>
      exact hinv.insideStep h rfl rfl rfl rfl (fun hacc => hacc.close) rfl
  | delete i c h =>
      refine hinv.insideStep h rfl rfl rfl rfl (fun hacc => ?_) rfl
      refine hacc.finish (fun c => rfl) rfl (fun d hclosed hd => ?_) (fun h => by cases h)
      obtain ⟨hne, hd⟩ := Finset.mem_erase.mp hd
      -- the channel in the hands of this `Cancel` is the one just deleted
      obtain ⟨d', rfl, hpc⟩ := hacc.closed d hclosed hd
      cases hpc
      exact hne rfl
  | unlock i p h => exact hinv.unlockStep h
  | recover i p h => exact hinv.outsideStep h rfl rfl rfl
  | receive c hbuf =>
      exact ⟨hinv.mutex, hinv.account.receive (some c) _, hinv.quiet⟩

theorem v1Inv_init (cap : C → ℕ) {s : ServerV1 C E} (h : (serverV1System C E cap).init s) :
    V1Inv s := by
  obtain ⟨hidle, hmu, hsub, hchan, hcalls⟩ := h
  have hpc : ∀ (i : ℕ) (pc : V1Pc C E), s.callers[i]? = some pc → pc = .idle :=
    fun i pc hi => hidle pc (List.mem_of_getElem? hi)
  constructor
  · intro i pc hi
    rw [hpc i pc hi, hmu]
    simp [V1Pc.inside]
  · have hholder : s.holder = .idle := by
      unfold ServerV1.holder
      rw [hmu]
    rw [hholder, hsub, hchan, hcalls]
    constructor
    · exact ⟨[], rfl, rfl⟩
    · exact fun c => rfl
    · exact fun c h => absurd rfl h
    · exact fun c h => by cases h
    · exact fun c h => by cases h
    · exact fun h => by cases h
  · intro i pc hi
    rw [hpc i pc hi]
    rfl

theorem v1Inv_reachable {cap : C → ℕ} {s : ServerV1 C E}
    (h : ((serverV1System C E cap).restrict NoResubscription).Reachable s) : V1Inv s := by
  refine System.Reachable.invariant (M := (serverV1System C E cap).restrict NoResubscription)
    (I := V1Inv) (fun s hs => v1Inv_init cap hs) ?_ h
  intro s s' _ hinv hs
  exact hinv.step hs.1 hs.2

/-! ## §4. Consequences of the invariant. -/

/-- What was sent on `c`, while the last event may still be owed by its `Publish`. -/
theorem V1Inv.sent_window {s : ServerV1 C E} (hinv : V1Inv s) (c : Option C) :
    window c s.calls = (s.chan c).sent ∨
      ∃ (i k : ℕ) (e : E) (rest : Finset (Option C)),
        s.callers[i]? = some (.sending k e rest) ∧ c ∈ rest ∧
          window c s.calls = (s.chan c).sent ++ [(k, e)] := by
  have hsent := hinv.account.sent c
  by_cases howed : s.holder.owed c = []
  · left
    rw [hsent, howed, List.append_nil]
  · right
    have hne : s.holder ≠ .idle := fun hidle => howed (by rw [hidle]; rfl)
    obtain ⟨i, hi⟩ := s.holder_mem hne
    -- only a `Publish` in its loop owes an event
    cases hpc : s.holder with
    | sending k e rest =>
        rw [hpc] at hi howed hsent
        have hc : c ∈ rest := by
          by_contra hc
          exact howed (if_neg hc)
        refine ⟨i, k, e, rest, hi, hc, ?_⟩
        rw [hsent]
        simp [V1Pc.owed, hc]
    | _ =>
        rw [hpc] at howed
        exact absurd rfl howed

/-- A closed channel has got everything of its subscription. -/
theorem V1Inv.closed_window {s : ServerV1 C E} (hinv : V1Inv s) {c : Option C}
    (hclosed : (s.chan c).closed = true) : window c s.calls = (s.chan c).sent := by
  rcases hinv.sent_window c with h | ⟨i, k, e, rest, hi, hc, -⟩
  · exact h
  · -- a channel that is owed an event is subscribed and open
    have hacc := (hinv.holder_eq hi rfl).2 ▸ hinv.account
    have hsub : c ∈ s.sub := hacc.owed c (by simp [V1Pc.owed, hc])
    exact absurd hsub (hacc.not_closed (fun d hd => by cases hd) c hclosed)

theorem V1Inv.sent_prefix {s : ServerV1 C E} (hinv : V1Inv s) (c : Option C) :
    (s.chan c).sent <+: window c s.calls := by
  rw [hinv.account.sent c]
  exact List.prefix_append _ _

/-- Two subscribers see the events they have in common in the same order. -/
theorem V1Inv.agree {s : ServerV1 C E} (hinv : V1Inv s) (c d : Option C) {x y : ℕ × E}
    (hxc : x ∈ (s.chan c).received) (hyc : y ∈ (s.chan c).received)
    (hxd : x ∈ (s.chan d).received) (hyd : y ∈ (s.chan d).received) :
    [x, y] <+ (s.chan c).received ↔ [x, y] <+ (s.chan d).received := by
  have hsorted : ∀ c, (s.chan c).received.Pairwise (fun x y => x.1 < y.1) := by
    intro c
    have hpre : (s.chan c).received <+: window c s.calls :=
      (List.take_prefix _ _).trans (hinv.sent_prefix c)
    exact (window_pairwise c s.calls).sublist hpre.sublist
  rw [pair_sublist_iff (hsorted c) hxc hyc, pair_sublist_iff (hsorted d) hxd hyd]

/-- A step on an open channel leaves a closed one alone. -/
theorem ServerV1.update_of_closed (s : ServerV1 C E) {c : Option C} {d : C} {ch : V1Chan E}
    (hclosed : (s.chan c).closed = true) (hopen : (s.chan (some d)).closed = false) :
    (Function.update s.chan (some d) ch c).closed = true ∧
      (Function.update s.chan (some d) ch c).sent = (s.chan c).sent := by
  have hne : c ≠ some d := by
    intro hcd
    rw [hcd, hopen] at hclosed
    cases hclosed
  rw [Function.update_of_ne hne]
  exact ⟨hclosed, rfl⟩

/-- Nothing is sent on a closed channel, and it stays closed. -/
theorem V1Step.closed {cap : C → ℕ} {s s' : ServerV1 C E} (hs : V1Step cap s s') {c : Option C}
    (hclosed : (s.chan c).closed = true) :
    (s'.chan c).closed = true ∧ (s'.chan c).sent = (s.chan c).sent := by
  cases hs with
  | send i k e rest d h hd hopen hroom => exact s.update_of_closed hclosed hopen
  | sendReceive i k e rest d h hd hopen hempty => exact s.update_of_closed hclosed hopen
  | close i d h hsub hopen => exact s.update_of_closed hclosed hopen
  | receive d hbuf =>
      by_cases hcd : c = some d
      · subst hcd
        show (Function.update s.chan (some d) _ (some d)).closed = true ∧ _
        simp only [Function.update_self, hclosed, and_self]
      · show (Function.update s.chan (some d) _ c).closed = true ∧ _
        simp only [Function.update_of_ne hcd, hclosed, and_self]
  | _ => exact ⟨hclosed, rfl⟩

/-! ## §5. A run of two callers. -/

omit [DecidableEq C] in
theorem NoResubscription.of_sub {s s' : ServerV1 C E} (h : s'.sub = s.sub) :
    NoResubscription s s' := by
  intro c hc hn
  rw [h] at hc
  exact absurd hc hn

/-- Two channels without a buffer. -/
def v1Pair : System (ServerV1 Bool ℕ) := serverV1System Bool ℕ (fun _ => 0)

/-- Two `Subscribe`, two `Publish` by two callers, a `Cancel`, a third `Publish`, and a second
`Cancel` of the same channel, which panics. -/
theorem v1_delivered : ∃ s, (v1Pair.restrict NoResubscription).Reachable s ∧
    s.callers = [.unlocking (some .notSubscribed), .idle] ∧ s.sub = {some true} ∧
    (s.chan (some false)).closed = true ∧
    (s.chan (some false)).sent = [(2, 10), (3, 20)] ∧
    (s.chan (some false)).received = [(2, 10), (3, 20)] ∧
    (s.chan (some true)).received = [(2, 10), (3, 20), (5, 30)] := by
  have hstart : v1Pair.init ⟨[.idle, .idle], none, ∅, fun _ => ⟨[], 0, false⟩, [], ∅⟩ := by
    refine ⟨?_, rfl, rfl, rfl, rfl⟩
    intro pc hpc
    simpa using hpc
  have h0 := System.Reachable.of_init (M := v1Pair.restrict NoResubscription) hstart
  have h1 := (((h0.tail ⟨V1Step.call 0 (.subscribe (some false)) rfl, .of_sub rfl⟩).tail
    ⟨V1Step.lock 0 _ rfl rfl, .of_sub rfl⟩).tail
    ⟨V1Step.subscribe 0 _ rfl (by decide), fun _ _ _ => rfl⟩).tail
    ⟨V1Step.unlock 0 _ rfl, .of_sub rfl⟩
  have h2 := (((h1.tail ⟨V1Step.call 0 (.subscribe (some true)) rfl, .of_sub rfl⟩).tail
    ⟨V1Step.lock 0 _ rfl rfl, .of_sub rfl⟩).tail
    ⟨V1Step.subscribe 0 _ rfl (by decide), fun _ _ _ => rfl⟩).tail
    ⟨V1Step.unlock 0 _ rfl, .of_sub rfl⟩
  -- the second caller waits for the mutex
  have h3 := ((h2.tail ⟨V1Step.call 0 (.publish 10) rfl, .of_sub rfl⟩).tail
    ⟨V1Step.call 1 (.publish 20) rfl, .of_sub rfl⟩).tail ⟨V1Step.lock 0 _ rfl rfl, .of_sub rfl⟩
  have h4 := (((h3.tail
    ⟨V1Step.sendReceive 0 2 10 _ true rfl (by decide) rfl rfl, .of_sub rfl⟩).tail
    ⟨V1Step.sendReceive 0 2 10 _ false rfl (by decide) rfl rfl, .of_sub rfl⟩).tail
    ⟨V1Step.publishEnd 0 2 10 rfl, .of_sub rfl⟩).tail ⟨V1Step.unlock 0 _ rfl, .of_sub rfl⟩
  have h5 := ((((h4.tail ⟨V1Step.lock 1 _ rfl rfl, .of_sub rfl⟩).tail
    ⟨V1Step.sendReceive 1 3 20 _ false rfl (by decide) rfl rfl, .of_sub rfl⟩).tail
    ⟨V1Step.sendReceive 1 3 20 _ true rfl (by decide) rfl rfl, .of_sub rfl⟩).tail
    ⟨V1Step.publishEnd 1 3 20 rfl, .of_sub rfl⟩).tail ⟨V1Step.unlock 1 _ rfl, .of_sub rfl⟩
  have h6 := ((((h5.tail ⟨V1Step.call 0 (.cancel (some false)) rfl, .of_sub rfl⟩).tail
    ⟨V1Step.lock 0 _ rfl rfl, .of_sub rfl⟩).tail
    ⟨V1Step.close 0 false rfl (by decide) rfl, .of_sub rfl⟩).tail
    ⟨V1Step.delete 0 _ rfl, by
      intro c hc hn
      exact absurd (Finset.mem_of_mem_erase hc) hn⟩).tail ⟨V1Step.unlock 0 _ rfl, .of_sub rfl⟩
  have h7 := ((((h6.tail ⟨V1Step.call 1 (.publish 30) rfl, .of_sub rfl⟩).tail
    ⟨V1Step.lock 1 _ rfl rfl, .of_sub rfl⟩).tail
    ⟨V1Step.sendReceive 1 5 30 _ true rfl (by decide) rfl rfl, .of_sub rfl⟩).tail
    ⟨V1Step.publishEnd 1 5 30 rfl, .of_sub rfl⟩).tail ⟨V1Step.unlock 1 _ rfl, .of_sub rfl⟩
  have h8 := ((h7.tail ⟨V1Step.call 0 (.cancel (some false)) rfl, .of_sub rfl⟩).tail
    ⟨V1Step.lock 0 _ rfl rfl, .of_sub rfl⟩).tail
    ⟨V1Step.cancelPanic 0 _ rfl (by decide), .of_sub rfl⟩
  exact ⟨_, h8, rfl, rfl, rfl, rfl, rfl, rfl⟩

/-! ## §6. The results. -/

/-- **The law of `PubSub` for `ServerV1`**, in every state of every run in which no channel
is subscribed again after it was cancelled:
  • the events sent on `c` are those of the `Publish` calls between its `Subscribe` and its
    `Cancel`, in that order; the last one is missing while its `Publish` has still to send it;
  • a closed channel was cancelled, has all its events, and gets no further one;
  • two subscribers see common events in the same order;
  • a call that panics has left the keys of `s.sub` as they were at its `Lock`, and its next
    step releases the mutex and changes nothing else of the server. -/
theorem serverV1_law (cap : C → ℕ) (s : ServerV1 C E)
    (h : ((serverV1System C E cap).restrict NoResubscription).Reachable s) :
    (∀ c, window c s.calls = (s.chan c).sent ∨
      ∃ (i k : ℕ) (e : E) (rest : Finset (Option C)),
        s.callers[i]? = some (.sending k e rest) ∧ c ∈ rest ∧
          window c s.calls = (s.chan c).sent ++ [(k, e)]) ∧
    (∀ c, (s.chan c).closed = true →
      .cancel c ∈ s.calls ∧ window c s.calls = (s.chan c).sent ∧
        ∀ s', V1Step cap s s' → (s'.chan c).closed = true ∧ (s'.chan c).sent = (s.chan c).sent) ∧
    (∀ c d x y, x ∈ (s.chan c).received → y ∈ (s.chan c).received →
      x ∈ (s.chan d).received → y ∈ (s.chan d).received →
        ([x, y] <+ (s.chan c).received ↔ [x, y] <+ (s.chan d).received)) ∧
    (∀ (i : ℕ) (p : V1Panic), s.callers[i]? = some (.unlocking (some p)) →
      s.mu = some i ∧ s.sub = s.atLock ∧
        V1Step cap s { s with callers := s.callers.set i (.panicked p), mu := none }) ∧
    (∀ (i : ℕ) (p : V1Panic), s.callers[i]? = some (.panicked p) → s.mu ≠ some i) := by
  have hinv : V1Inv s := v1Inv_reachable h
  refine ⟨hinv.sent_window, ?_, ?_, ?_, ?_⟩
  · intro c hclosed
    exact ⟨hinv.account.cancelled c hclosed, hinv.closed_window hclosed,
      fun s' hs => hs.closed hclosed⟩
  · intro c d x y hxc hyc hxd hyd
    exact hinv.agree c d hxc hyc hxd hyd
  · intro i p hi
    obtain ⟨hmu, hholder⟩ := hinv.holder_eq hi rfl
    have hkept : s.holder.unchanged = true := by
      rw [hholder]
      rfl
    exact ⟨hmu, hinv.account.kept hkept, V1Step.unlock i (some p) hi⟩
  · intro i p hi hmu
    have := (hinv.mutex i _ hi).mpr hmu
    cases this

theorem serverV1_law_delivered : ∃ s, (v1Pair.restrict NoResubscription).Reachable s ∧
    window (some false) s.calls = [(2, 10), (3, 20)] ∧
    ([(2, 10), (3, 20)] <+ (s.chan (some true)).received) ∧ s.mu = some 0 ∧
    s.sub = s.atLock := by
  obtain ⟨s, h, hcallers, -, hclosed, hsent, hfalse, htrue⟩ := v1_delivered
  obtain ⟨-, hlaw, horder, hpanic, -⟩ := serverV1_law (fun _ => 0) s h
  obtain ⟨-, hwin, -⟩ := hlaw (some false) hclosed
  obtain ⟨hmu, hkept, -⟩ := hpanic 0 .notSubscribed (by rw [hcallers]; rfl)
  have hcommon := horder (some false) (some true) (2, 10) (3, 20)
    (by rw [hfalse]; decide) (by rw [hfalse]; decide) (by rw [htrue]; decide)
    (by rw [htrue]; decide)
  exact ⟨s, h, hwin.trans hsent, hcommon.mp (by rw [hfalse]), hmu, hkept⟩

/-- **Every subscribed channel is open**, in the runs in which no channel is subscribed again
after it was cancelled, except for the one that a `Cancel` has closed and is about to delete;
no call panics because a channel is closed. -/
theorem serverV1_open (cap : C → ℕ) (s : ServerV1 C E)
    (h : ((serverV1System C E cap).restrict NoResubscription).Reachable s) :
    (s.mu = none → ∀ c ∈ s.sub, (s.chan c).closed = false) ∧
    (∀ c ∈ s.sub, (s.chan c).closed = true →
      ∃ (i : ℕ) (d : C), c = some d ∧ s.callers[i]? = some (.deleting d)) ∧
    (∀ (i : ℕ) (pc : V1Pc C E), s.callers[i]? = some pc →
      pc.panic ≠ some .sendOnClosedChannel ∧ pc.panic ≠ some .closeOfClosedChannel) := by
  have hinv : V1Inv s := v1Inv_reachable h
  have hdel : ∀ c ∈ s.sub, (s.chan c).closed = true →
      ∃ (i : ℕ) (d : C), c = some d ∧ s.callers[i]? = some (.deleting d) := by
    intro c hc hclosed
    obtain ⟨d, hcd, hpc⟩ := hinv.account.closed c hclosed hc
    obtain ⟨i, hi⟩ := s.holder_mem (by rw [hpc]; simp)
    exact ⟨i, d, hcd, hpc ▸ hi⟩
  refine ⟨?_, hdel, ?_⟩
  · intro hmu c hc
    cases hclosed : (s.chan c).closed with
    | false => rfl
    | true =>
        obtain ⟨i, d, -, hi⟩ := hdel c hc hclosed
        have := (hinv.mutex i _ hi).mp rfl
        rw [hmu] at this
        cases this
  · intro i pc hi
    have hq := hinv.quiet i pc hi
    constructor
    · intro hp
      rw [hp] at hq
      cases hq
    · intro hp
      rw [hp] at hq
      cases hq

theorem serverV1_open_delivered : ∃ s, (v1Pair.restrict NoResubscription).Reachable s ∧
    s.sub = {some true} ∧ (s.chan (some false)).closed = true ∧
    (s.chan (some true)).closed = false := by
  obtain ⟨s, h, hcallers, hsub, hclosed, -⟩ := v1_delivered
  have hunlock := h.tail ⟨V1Step.unlock 0 (some .notSubscribed) (by rw [hcallers]; rfl),
    .of_sub rfl⟩
  have hopen := (serverV1_open (fun _ => 0) _ hunlock).1 rfl
  exact ⟨_, hunlock, hsub, hclosed, hopen (some true) (by simp [hsub])⟩

/-- One caller, before its first call. -/
def v1Start : ServerV1 Unit Unit := ⟨[.idle], none, ∅, fun _ => ⟨[], 0, false⟩, [], ∅⟩

def v1System : System (ServerV1 Unit Unit) := serverV1System Unit Unit (fun _ => 0)

theorem v1Start_init : v1System.init v1Start := by
  refine ⟨?_, rfl, rfl, rfl, rfl⟩
  intro pc hpc
  exact List.mem_singleton.mp hpc

/-- **A channel that is cancelled and subscribed again is closed for good**: it is a key of
`s.sub` while no call holds the mutex, and the next `Publish` panics. -/
theorem serverV1_resubscribed :
    ¬ ∀ s, v1System.Reachable s → s.mu = none → ∀ c ∈ s.sub, (s.chan c).closed = false := by
  intro hopen
  have h0 := System.Reachable.of_init v1Start_init
  -- `Subscribe(c)`
  have h1 := h0.tail (V1Step.call 0 (.subscribe (some ())) rfl)
  have h2 := h1.tail (V1Step.lock 0 _ rfl rfl)
  have h3 := h2.tail (V1Step.subscribe 0 _ rfl (by decide))
  have h4 := h3.tail (V1Step.unlock 0 _ rfl)
  -- `Cancel(c)`
  have h5 := h4.tail (V1Step.call 0 (.cancel (some ())) rfl)
  have h6 := h5.tail (V1Step.lock 0 _ rfl rfl)
  have h7 := h6.tail (V1Step.close 0 () rfl (by decide) rfl)
  have h8 := h7.tail (V1Step.delete 0 _ rfl)
  have h9 := h8.tail (V1Step.unlock 0 _ rfl)
  -- `Subscribe(c)` again
  have h10 := h9.tail (V1Step.call 0 (.subscribe (some ())) rfl)
  have h11 := h10.tail (V1Step.lock 0 _ rfl rfl)
  have h12 := h11.tail (V1Step.subscribe 0 _ rfl (by decide))
  have h13 := h12.tail (V1Step.unlock 0 _ rfl)
  have := hopen _ h13 rfl (some ()) (by decide)
  cases this

end ComputerScience.PubSub
