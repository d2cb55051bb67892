/-
  ComputerScience.Sync.PrethreadedEcho
  ────────────────────────────────────
  **WHAT THE PRETHREADED ECHO SERVER DOES FOR ITS CLIENTS.**

  By the conservation law of descriptors no two workers serve one connection, and the
  descriptor a worker reads from, writes to and closes is open and stands for the connection
  that was accepted with it, however often the kernel has given out its number before.  So
  what a client sends is in one line of places,

      sent  =  echoed + `buf` of its worker + `rio_buf` of its worker + in the kernel,

  and the connection is closed only when the client has ended it and all but the first of
  these are empty.  Three things follow by induction over the run: every client gets its own
  bytes back, the connections are taken in the order they were accepted, and `byte_cnt`
  counts the bytes of all clients.

  Main results:
    • `EchoInv.step` — one step, for the bytes of the connections,
    • `TotalInv.step` — one step, for their number,
    • `prethreaded_serves` — every reachable state.
-/
import ComputerScience.Sync.Prethreaded

namespace ComputerScience.Sync

open ComputerScience.Lib

variable {s s' : Pre}

/-! ## §1. The bytes of the connections. -/

/-- Worker `w` serves `σ`, on the connection `conn` of number `c`. -/
def Serves (s : Pre) (w : ℕ) (σ : Session) (c : ℕ) (conn : Conn) : Prop :=
  s.workers[w]? = some (.serving σ) ∧ s.table σ.fd = some c ∧ s.conns[c]? = some conn

/-- Where the bytes of a connection in a session are. -/
structure Flow (conn : Conn) (σ : Session) : Prop where
  received : conn.received = conn.echoed ++ σ.line
  sent : conn.sent = conn.received ++ (σ.rio ++ conn.unread)
  finished : σ.pc = .close → σ.line = [] ∧ σ.rio = [] ∧ conn.ended = true ∧ conn.unread = []

/-- A connection that no worker serves, or that is closed. -/
structure Conn.Rests (conn : Conn) : Prop where
  received : conn.received = conn.echoed
  sent : conn.sent = conn.received ++ conn.unread
  finished : conn.closed = true → conn.ended = true ∧ conn.unread = []

/-- What a client has sent is sent back, or on its way. -/
structure EchoInv (s : Pre) : Prop where
  serving : ∀ w σ c conn, Serves s w σ c conn → Flow conn σ
  resting : ∀ (c : ℕ) conn, s.conns[c]? = some conn →
    conn.closed = true ∨ conn.fd ∉ s.workers.filterMap WorkerPc.hand → conn.Rests

theorem mem_hands {ws : List WorkerPc} {w : ℕ} {σ : Session} (h : ws[w]? = some (.serving σ)) :
    σ.fd ∈ ws.filterMap WorkerPc.hand :=
  List.mem_filterMap.mpr ⟨_, List.mem_of_getElem? h, rfl⟩

/-- A step that leaves the connections. -/
theorem EchoInv.frame (h : EchoInv s) (hconns : s'.conns = s.conns) (htable : s'.table = s.table)
    (hhands : s'.workers.filterMap WorkerPc.hand = s.workers.filterMap WorkerPc.hand)
    (hserving : ∀ (w : ℕ) σ, s'.workers[w]? = some (.serving σ) →
      ∃ σ₀, s.workers[w]? = some (.serving σ₀) ∧ σ₀.fd = σ.fd ∧
        ∀ c conn, Serves s w σ₀ c conn → Flow conn σ) :
    EchoInv s' := by
  refine ⟨?_, ?_⟩
  · rintro w σ c conn ⟨hw, hopen, hconn⟩
    obtain ⟨σ₀, hσ₀, hfd, hflow⟩ := hserving w σ hw
    rw [htable, ← hfd] at hopen
    rw [hconns] at hconn
    exact hflow c conn ⟨hσ₀, hopen, hconn⟩
  · rw [hconns, hhands]
    exact h.resting

/-- A step that leaves the workers too. -/
theorem EchoInv.of_workers_eq (h : EchoInv s) (hconns : s'.conns = s.conns)
    (htable : s'.table = s.table) (hworkers : s'.workers = s.workers) : EchoInv s' := by
  refine h.frame hconns htable (by rw [hworkers]) ?_
  intro w σ hw
  rw [hworkers] at hw
  exact ⟨σ, hw, rfl, fun c conn hs => h.serving w σ c conn hs⟩

/-- A step of a worker in its session that leaves its connection. -/
theorem EchoInv.set_serving (h : EchoInv s) {w : ℕ} {σ σ' : Session}
    (hw : s.workers[w]? = some (.serving σ)) (hconns : s'.conns = s.conns)
    (htable : s'.table = s.table) (hworkers : s'.workers = s.workers.set w (.serving σ'))
    (hfd : σ'.fd = σ.fd) (hflow : ∀ c conn, Serves s w σ c conn → Flow conn σ') :
    EchoInv s' := by
  refine h.frame hconns htable ?_ ?_
  · rw [hworkers]
    exact hands_set hw σ' hfd
  · intro k τ hk
    rw [hworkers] at hk
    rcases getElem?_set_cases hk with ⟨rfl, heq⟩ | ⟨-, hk⟩
    · cases heq
      exact ⟨σ, hw, hfd.symm, hflow⟩
    · exact ⟨τ, hk, rfl, fun c conn hs => h.serving k τ c conn hs⟩

/-- A worker that takes no session and leaves none. -/
theorem EchoInv.set_outside (h : EchoInv s) {w : ℕ} {x x' : WorkerPc}
    (hx : s.workers[w]? = some x) (hout : x.hand = none) (hout' : x'.hand = none)
    (hconns : s'.conns = s.conns) (htable : s'.table = s.table)
    (hworkers : s'.workers = s.workers.set w x') : EchoInv s' := by
  refine h.frame hconns htable ?_ ?_
  · rw [hworkers]
    exact filterMap_set_eq hx (hout'.trans hout.symm)
  · intro k σ hk
    rw [hworkers] at hk
    rcases getElem?_set_cases hk with ⟨-, rfl⟩ | ⟨-, hk⟩
    · cases hout'
    · exact ⟨σ, hk, rfl, fun c conn hs => h.serving k σ c conn hs⟩

/-- **A step of a client**, on its connection. -/
theorem EchoInv.client (h : EchoInv s) {c : ℕ} {conn conn' : Conn}
    (hconn : s.conns[c]? = some conn) (hconns : s'.conns = s.conns.set c conn')
    (htable : s'.table = s.table) (hworkers : s'.workers = s.workers) (hfd : conn'.fd = conn.fd)
    (hclosed : conn'.closed = conn.closed) (hflow : ∀ σ, Flow conn σ → Flow conn' σ)
    (hrests : conn.Rests → conn'.Rests) : EchoInv s' := by
  refine ⟨?_, ?_⟩
  · rintro w σ d z ⟨hw, hopen, hz⟩
    rw [hworkers] at hw
    rw [htable] at hopen
    rw [hconns] at hz
    rcases getElem?_set_cases hz with ⟨rfl, rfl⟩ | ⟨-, hz⟩
    · exact hflow σ (h.serving w σ _ conn ⟨hw, hopen, hconn⟩)
    · exact h.serving w σ d z ⟨hw, hopen, hz⟩
  · intro d z hz hrest
    rw [hworkers] at hrest
    rw [hconns] at hz
    rcases getElem?_set_cases hz with ⟨rfl, rfl⟩ | ⟨-, hz⟩
    · rw [hfd, hclosed] at hrest
      exact hrests (h.resting _ conn hconn hrest)
    · exact h.resting d z hz hrest

/-- The other workers serve other connections. -/
theorem PreInv.serves_unique (h : PreInv s) (hfew : s.sb.inserted.length < 2 ^ 31 - 1) {w w' c : ℕ}
    {σ σ' : Session} {conn conn' : Conn} (hs : Serves s w σ c conn) (hs' : Serves s w' σ' c conn') :
    w' = w := by
  have hnodup := (List.nodup_append.mp (h.owned_nodup hfew)).1
  obtain ⟨z, hz, hfd, -⟩ := (h.table σ.fd c).mp hs.2.1
  obtain ⟨z', hz', hfd', -⟩ := (h.table σ'.fd c).mp hs'.2.1
  rw [hz] at hz'
  cases hz'
  refine nodup_filterMap_iff.mp hnodup w' w _ _ σ.fd hs'.1 hs.1 ?_ rfl
  exact congrArg some (hfd'.symm.trans hfd)

/-- **A step of a worker in its session**, on its connection. -/
theorem EchoInv.session (h : EchoInv s) (hinv : PreInv s)
    (hfew : s.sb.inserted.length < 2 ^ 31 - 1) {w c : ℕ} {σ σ' : Session} {conn conn' : Conn}
    (hs : Serves s w σ c conn) (hconns : s'.conns = s.conns.set c conn')
    (htable : s'.table = s.table) (hworkers : s'.workers = s.workers.set w (.serving σ'))
    (hfd : σ'.fd = σ.fd) (hconnfd : conn'.fd = conn.fd) (hclosed : conn'.closed = false)
    (hdata : Flow conn' σ') : EchoInv s' := by
  obtain ⟨hw, hopen, hconn⟩ := hs
  have hhands : s'.workers.filterMap WorkerPc.hand = s.workers.filterMap WorkerPc.hand := by
    rw [hworkers]
    exact hands_set hw σ' hfd
  refine ⟨?_, ?_⟩
  · rintro k τ d z ⟨hk, hτ, hz⟩
    rw [hworkers] at hk
    rw [htable] at hτ
    rw [hconns] at hz
    rcases getElem?_set_cases hk with ⟨rfl, heq⟩ | ⟨hkw, hk⟩
    · cases heq
      rw [hfd, hopen] at hτ
      cases hτ
      rw [List.getElem?_set_self (List.getElem?_eq_some_iff.mp hconn).1] at hz
      cases hz
      exact hdata
    · rcases getElem?_set_cases hz with ⟨rfl, rfl⟩ | ⟨-, hz⟩
      · exact absurd (hinv.serves_unique hfew ⟨hw, hopen, hconn⟩ ⟨hk, hτ, hconn⟩) hkw
      · exact h.serving k τ d z ⟨hk, hτ, hz⟩
  · intro d z hz hrest
    rw [hhands] at hrest
    rw [hconns] at hz
    rcases getElem?_set_cases hz with ⟨-, rfl⟩ | ⟨-, hz⟩
    · -- this connection is not at rest
      exfalso
      obtain ⟨z', hz', hzfd, -⟩ := (hinv.table σ.fd c).mp hopen
      rw [hconn] at hz'
      cases hz'
      rcases hrest with hcl | hout
      · rw [hclosed] at hcl
        cases hcl
      · rw [hconnfd, hzfd] at hout
        exact hout (mem_hands hw)
    · exact h.resting d z hz hrest

theorem PreStep.inserted_length (h : PreStep s s') :
    s.sb.inserted.length ≤ s'.sb.inserted.length := by
  cases h with
  | inside sb' hs hin => exact hs.inserted_length
  | _ => exact Nat.le_refl _

/-- A connection is accepted. -/
theorem EchoInv.accept (h : EchoInv s) (hinv : PreInv s)
    (hfew : s.sb.inserted.length < 2 ^ 31 - 1) {connfd : ℤ} {new : Conn}
    (hfree : s.table connfd = none) (hnew : new.Rests)
    (hconns : s'.conns = s.conns ++ [new])
    (htable : s'.table = Function.update s.table connfd (some s.conns.length))
    (hworkers : s'.workers = s.workers) : EchoInv s' := by
  refine ⟨?_, ?_⟩
  · rintro w σ c conn ⟨hw, hopen, hconn⟩
    rw [hworkers] at hw
    rw [hconns] at hconn
    -- the new number is in nobody's hand
    have hne : σ.fd ≠ connfd := by
      rintro rfl
      obtain ⟨d, z, hd, -⟩ := hinv.open_of_owned hfew (List.mem_append_left _ (mem_hands hw))
      rw [hfree] at hd
      cases hd
    rw [htable, Function.update_of_ne hne] at hopen
    obtain ⟨z, hz, -⟩ := (hinv.table σ.fd c).mp hopen
    rcases getElem?_concat_cases hconn with hold | ⟨rfl, -⟩
    · exact h.serving w σ c conn ⟨hw, hopen, hold⟩
    · exact absurd (List.getElem?_eq_some_iff.mp hz).1 (Nat.lt_irrefl _)
  · intro c conn hconn hrest
    rw [hworkers] at hrest
    rw [hconns] at hconn
    rcases getElem?_concat_cases hconn with hold | ⟨-, rfl⟩
    · exact h.resting c conn hold hrest
    · exact hnew

/-- A worker takes a descriptor that was in nobody's hand. -/
theorem EchoInv.take (h : EchoInv s) (hinv : PreInv s) {w : ℕ} {x : WorkerPc} {σ : Session}
    (hx : s.workers[w]? = some x) (hhand : x.hand = none)
    (hout : σ.fd ∉ s.workers.filterMap WorkerPc.hand)
    (hflow : ∀ conn : Conn, conn.Rests → Flow conn σ) (hconns : s'.conns = s.conns)
    (htable : s'.table = s.table) (hworkers : s'.workers = s.workers.set w (.serving σ)) :
    EchoInv s' := by
  have hmore := filterMap_set_perm (f := WorkerPc.hand) (y := .serving σ) hx hhand rfl
  refine ⟨?_, ?_⟩
  · rintro j τ c conn ⟨hj, hopen, hconn⟩
    rw [hworkers] at hj
    rw [htable] at hopen
    rw [hconns] at hconn
    rcases getElem?_set_cases hj with ⟨-, heq⟩ | ⟨-, hj⟩
    · cases heq
      obtain ⟨z, hz, hfd, -⟩ := (hinv.table σ.fd c).mp hopen
      rw [hconn] at hz
      cases hz
      exact hflow conn (h.resting c conn hconn (.inr (by rw [hfd]; exact hout)))
    · exact h.serving j τ c conn ⟨hj, hopen, hconn⟩
  · intro c conn hconn hrest
    rw [hconns] at hconn
    rw [hworkers] at hrest
    refine h.resting c conn hconn (hrest.imp id ?_)
    intro hnot hin
    exact hnot (hmore.mem_iff.mpr (List.mem_cons_of_mem _ hin))

/-- A worker closes its connection; the number is free again. -/
theorem EchoInv.leave (h : EchoInv s) (hinv : PreInv s)
    (hfew : s.sb.inserted.length < 2 ^ 31 - 1) {w c : ℕ} {σ : Session} {conn conn' : Conn}
    {x : WorkerPc} (hs : Serves s w σ c conn) (hconns : s'.conns = s.conns.set c conn')
    (htable : s'.table = Function.update s.table σ.fd none)
    (hworkers : s'.workers = s.workers.set w x) (hhand : x.hand = none)
    (hdata : conn'.Rests) : EchoInv s' := by
  -- the number leaves the hands together with its worker
  obtain ⟨hw, hopen, hconn⟩ := hs
  have hless := filterMap_set_perm_of_none (f := WorkerPc.hand) hw rfl hhand
  refine ⟨?_, ?_⟩
  · rintro k τ d z ⟨hk, hτ, hz⟩
    rw [hworkers] at hk
    rw [htable] at hτ
    rw [hconns] at hz
    rcases getElem?_set_cases hk with ⟨-, rfl⟩ | ⟨hkw, hold⟩
    · cases hhand
    · have hne : τ.fd ≠ σ.fd := by
        intro heq
        rw [heq, Function.update_self] at hτ
        cases hτ
      rw [Function.update_of_ne hne] at hτ
      rcases getElem?_set_cases hz with ⟨rfl, rfl⟩ | ⟨-, hz⟩
      · exact absurd (hinv.serves_unique hfew ⟨hw, hopen, hconn⟩ ⟨hold, hτ, hconn⟩) hkw
      · exact h.serving k τ d z ⟨hold, hτ, hz⟩
  · intro d z hz hrest
    rw [hconns] at hz
    rw [hworkers] at hrest
    rcases getElem?_set_cases hz with ⟨-, rfl⟩ | ⟨hdc, hz⟩
    · exact hdata
    · -- no other connection is open on this number
      by_cases hclosed : z.closed = true
      · exact h.resting d z hz (.inl hclosed)
      · refine h.resting d z hz (.inr ?_)
        intro hin
        rcases List.mem_cons.mp (hless.mem_iff.mp hin) with heq | hin
        · have hd := (hinv.table σ.fd d).mpr ⟨z, hz, heq, by simpa using hclosed⟩
          rw [hopen] at hd
          cases hd
          exact hdc rfl
        · exact (hrest.resolve_left hclosed) hin

/-- `echo_cnt` ends at the end of file only. -/
theorem step_ne_close {c c' : EchoCnt} {n : ℕ} {pc pc' : EchoPc}
    (h : c.step n pc = some (c', pc')) : pc' ≠ .close := by
  rintro rfl
  cases pc with
  | once =>
      simp only [EchoCnt.step] at h
      split at h
      · cases h
      · cases h
      · cases h
  | lock =>
      simp only [EchoCnt.step] at h
      split at h
      · cases h
      · cases h
  | _ => cases h

/-- A session begins with a connection at rest. -/
theorem Conn.Rests.flow {conn : Conn} (h : conn.Rests) (connfd : ℤ) :
    Flow conn ⟨connfd, [], [], .once⟩ :=
  ⟨by rw [h.received, List.append_nil], h.sent, fun hpc => nomatch hpc⟩

/-- The client sends, while it has not ended its side. -/
theorem Flow.send {conn : Conn} {σ : Session} (h : Flow conn σ) (hend : conn.ended = false)
    (more : List UInt8) :
    Flow { conn with sent := conn.sent ++ more, unread := conn.unread ++ more } σ := by
  refine ⟨h.received, ?_, ?_⟩
  · show conn.sent ++ more = conn.received ++ (σ.rio ++ (conn.unread ++ more))
    rw [h.sent, List.append_assoc, List.append_assoc]
  · intro hpc
    rw [(h.finished hpc).2.2.1] at hend
    cases hend

theorem Conn.Rests.send {conn : Conn} (h : conn.Rests) (hend : conn.ended = false)
    (more : List UInt8) :
    Conn.Rests { conn with sent := conn.sent ++ more, unread := conn.unread ++ more } := by
  refine ⟨h.received, ?_, ?_⟩
  · show conn.sent ++ more = conn.received ++ (conn.unread ++ more)
    rw [h.sent, List.append_assoc]
  · intro hclosed
    rw [(h.finished hclosed).1] at hend
    cases hend

/-- The `read` of the worker takes the first bytes in the kernel. -/
theorem Flow.fill {conn : Conn} {connfd : ℤ} {line : List UInt8}
    (h : Flow conn ⟨connfd, line, [], .read⟩) (k : ℕ) :
    Flow { conn with unread := conn.unread.drop k } ⟨connfd, line, conn.unread.take k, .read⟩ := by
  refine ⟨h.received, ?_, fun hpc => nomatch hpc⟩
  show conn.sent = conn.received ++ (conn.unread.take k ++ conn.unread.drop k)
  rw [List.take_append_drop]
  exact h.sent

/-- `Rio_readlineb` takes the first byte of `rio_buf`. -/
theorem Flow.readByte {conn : Conn} {connfd : ℤ} {line rio : List UInt8} {b : UInt8}
    (h : Flow conn ⟨connfd, line, b :: rio, .read⟩) {pc : EchoPc} (hpc : pc ≠ .close) :
    Flow { conn with received := conn.received ++ [b] } ⟨connfd, line ++ [b], rio, pc⟩ := by
  refine ⟨?_, ?_, fun hclose => absurd hclose hpc⟩
  · show conn.received ++ [b] = conn.echoed ++ (line ++ [b])
    rw [h.received, List.append_assoc]
  · show conn.sent = conn.received ++ [b] ++ (rio ++ conn.unread)
    rw [h.sent, List.append_assoc]
    rfl

/-- A `write` takes the first bytes of the line. -/
theorem Flow.write {conn : Conn} {connfd : ℤ} {line rio : List UInt8}
    (h : Flow conn ⟨connfd, line, rio, .write⟩) (k : ℕ) :
    Flow { conn with echoed := conn.echoed ++ line.take k }
      ⟨connfd, line.drop k, rio, .write⟩ := by
  refine ⟨?_, h.sent, fun hpc => nomatch hpc⟩
  show conn.received = conn.echoed ++ line.take k ++ line.drop k
  rw [List.append_assoc, List.take_append_drop]
  exact h.received

/-- At the end of the session everything was sent back. -/
theorem Flow.rests {conn : Conn} {σ : Session} (h : Flow conn σ) (hpc : σ.pc = .close) :
    Conn.Rests { conn with closed := true } := by
  obtain ⟨hline, hrio, hend, hunread⟩ := h.finished hpc
  refine ⟨?_, ?_, fun _ => ⟨hend, hunread⟩⟩
  · show conn.received = conn.echoed
    rw [h.received, hline, List.append_nil]
  · show conn.sent = conn.received ++ conn.unread
    rw [h.sent, hrio, List.nil_append]

/-- **One step of the server**, for the connections. -/
theorem EchoInv.step (h : EchoInv s) (hinv : PreInv s)
    (hfew : s.sb.inserted.length < 2 ^ 31 - 1) (hstep : PreStep s s') : EchoInv s' := by
  have hstays : ∀ c connfd conn, s.conns[c]? = some conn → s.table connfd = some c →
      conn.closed = false := by
    intro c connfd conn hconn hopen
    obtain ⟨z, hz, -, hclosed⟩ := (hinv.table connfd c).mp hopen
    rw [hconn] at hz
    cases hz
    exact hclosed
  cases hstep with
  | create i hmain hi =>
      rcases hinv.roles.created hmain with hsame | hz
      · exact h.of_workers_eq rfl rfl hsame
      · exact h.set_outside hz rfl rfl rfl rfl rfl
  | createEnd i hmain hi => exact h.of_workers_eq rfl rfl rfl
  | accept connfd sent ended hmain hfree =>
      refine h.accept hinv hfew hfree ⟨rfl, rfl, ?_⟩ rfl rfl rfl
      intro hclosed
      cases hclosed
  | insertCall connfd hmain => exact h.of_workers_eq rfl rfl rfl
  | inside sb' hs hin => exact h.of_workers_eq rfl rfl rfl
  | insertReturn hi => exact h.of_workers_eq rfl rfl rfl
  | removeCall w hw => exact h.set_outside hw rfl rfl rfl rfl rfl
  | removeReturn w k connfd hw =>
      -- what `sbuf_remove` returns is in no worker's hand yet
      have hgot : connfd ∈ s.sb.threads.filterMap Pc.got :=
        List.mem_filterMap.mpr ⟨_, List.mem_of_getElem? hw, rfl⟩
      have hout : connfd ∉ s.workers.filterMap WorkerPc.hand := by
        intro hin
        exact (List.nodup_append.mp (hinv.owned_nodup hfew)).2.2 connfd hin connfd
          (List.mem_append_left _ hgot) rfl
      exact h.take hinv (hinv.roles.removing hw rfl) rfl hout (fun _ hr => hr.flow connfd)
        rfl rfl rfl
  | count w σ cnt' pc' hw hs =>
      refine h.set_serving hw rfl rfl rfl rfl ?_
      intro c conn hserves
      have hdata := h.serving w σ c conn hserves
      exact ⟨hdata.received, hdata.sent, fun hpc => absurd hpc (step_ne_close hs)⟩
  | clientSend c conn more hconn hend =>
      exact h.client hconn rfl rfl rfl rfl rfl (fun σ hf => hf.send hend more)
        (fun hr => hr.send hend more)
  | clientEnd c conn hconn =>
      refine h.client hconn rfl rfl rfl rfl rfl ?_ ?_
      · intro σ hf
        exact ⟨hf.received, hf.sent, fun hpc =>
          ⟨(hf.finished hpc).1, (hf.finished hpc).2.1, rfl, (hf.finished hpc).2.2.2⟩⟩
      · intro hr
        exact ⟨hr.received, hr.sent, fun hclosed => ⟨rfl, (hr.finished hclosed).2⟩⟩
  | fill w c k connfd line conn hw hopen hconn hk hsize hlen =>
      have hdata := h.serving w _ c conn ⟨hw, hopen, hconn⟩
      exact h.session hinv hfew ⟨hw, hopen, hconn⟩ rfl rfl rfl rfl rfl
        (hstays c connfd conn hconn hopen) (hdata.fill k)
  | readByte w c connfd line rio b conn hw hopen hconn =>
      have hdata := h.serving w _ c conn ⟨hw, hopen, hconn⟩
      refine h.session hinv hfew ⟨hw, hopen, hconn⟩ rfl rfl rfl rfl rfl
        (hstays c connfd conn hconn hopen) (hdata.readByte ?_)
      split <;> simp
  | readEof w c connfd line conn hw hopen hconn hend hnil =>
      refine h.set_serving hw rfl rfl rfl rfl ?_
      rintro d z ⟨-, hd, hz⟩
      -- the descriptor stands for the connection that was read
      rw [hopen] at hd
      cases hd
      rw [hconn] at hz
      cases hz
      have hdata := h.serving w _ c conn ⟨hw, hopen, hconn⟩
      refine ⟨hdata.received, hdata.sent, ?_⟩
      intro hpc
      split at hpc
      next hline => exact ⟨hline, rfl, hend, hnil⟩
      next => cases hpc
  | write w c k connfd line rio conn hw hopen hconn hk hlen =>
      have hdata := h.serving w _ c conn ⟨hw, hopen, hconn⟩
      exact h.session hinv hfew ⟨hw, hopen, hconn⟩ rfl rfl rfl rfl rfl
        (hstays c connfd conn hconn hopen) (hdata.write k)
  | written w connfd rio hw =>
      refine h.set_serving hw rfl rfl rfl rfl ?_
      intro c conn hserves
      have hdata := h.serving w _ c conn hserves
      exact ⟨hdata.received, hdata.sent, fun hpc => nomatch hpc⟩
  | close w c σ conn hw hpc hopen hconn =>
      have hdata := h.serving w σ c conn ⟨hw, hopen, hconn⟩
      exact h.leave hinv hfew ⟨hw, hopen, hconn⟩ rfl rfl rfl rfl (hdata.rests hpc)

/-! ## §2. Their number. -/

/-- The bytes a worker has in `buf`, while they are not printed. -/
def WorkerPc.uncounted : WorkerPc → ℕ
  | .serving σ =>
      match σ.pc with
      | .unlock | .write | .close => 0
      | _ => σ.line.length
  | _ => 0

/-- How many bytes were received from a client. -/
def Conn.count (c : Conn) : ℕ := c.received.length

structure TotalInv (s : Pre) : Prop where
  count : CountInv s.cnt (s.workers.map WorkerPc.session)
  total : weight Conn.count s.conns = bytes s.cnt.log + weight WorkerPc.uncounted s.workers

theorem weight_set_conn {conns : List Conn} {c : ℕ} {conn conn' : Conn}
    (hconn : conns[c]? = some conn) (hreceived : conn'.received = conn.received) :
    weight Conn.count (conns.set c conn') = weight Conn.count conns := by
  have hset := weight_set Conn.count conn' hconn
  simp only [Conn.count, hreceived] at hset
  exact Nat.add_right_cancel hset

/-- A step of a client. -/
theorem TotalInv.conn (h : TotalInv s) {c : ℕ} {conn conn' : Conn}
    (hconn : s.conns[c]? = some conn) (hconns : s'.conns = s.conns.set c conn')
    (hreceived : conn'.received = conn.received) (hworkers : s'.workers = s.workers)
    (hcnt : s'.cnt = s.cnt) : TotalInv s' := by
  refine ⟨?_, ?_⟩
  · rw [hcnt, hworkers]
    exact h.count
  · rw [hconns, weight_set_conn hconn hreceived, hcnt, hworkers]
    exact h.total

/-- A step of a worker that leaves the counter. -/
theorem TotalInv.session (h : TotalInv s) {w : ℕ} {x x' : WorkerPc}
    (hx : s.workers[w]? = some x) (hworkers : s'.workers = s.workers.set w x')
    (hcnt : s'.cnt = s.cnt) (hinits : inits x'.session = inits x.session)
    (hpast : past x'.session ≤ past x.session) (hholds : holds x'.session = holds x.session)
    (hadded : added x'.session = added x.session)
    (hok : ∀ τ, x'.session = some τ → τ.pc.Ok s.cnt)
    (htotal : weight Conn.count s'.conns + x.uncounted =
      weight Conn.count s.conns + x'.uncounted) : TotalInv s' := by
  have hset := weight_set WorkerPc.uncounted x' hx
  have hold := h.total
  refine ⟨?_, ?_⟩
  · rw [hcnt, hworkers, List.map_set]
    refine h.count.session ?_ hinits hpast hholds hadded hok
    rw [List.getElem?_map, hx, Option.map_some]
  · rw [hcnt, hworkers]
    omega

/-- A step of the counter moves the bytes of a line to what is printed, or leaves both. -/
theorem step_total {c c' : EchoCnt} {σ : Session} {pc' : EchoPc}
    (h : c.step σ.line.length σ.pc = some (c', pc')) :
    bytes c'.log + WorkerPc.uncounted (.serving { σ with pc := pc' }) =
      bytes c.log + WorkerPc.uncounted (.serving σ) := by
  obtain ⟨fd, line, rio, pc⟩ := σ
  cases pc with
  | once =>
      simp only [EchoCnt.step] at h
      split at h
      · cases h
        rfl
      · cases h
      · cases h
        rfl
  | lock =>
      simp only [EchoCnt.step] at h
      split at h
      · cases h
        rfl
      · cases h
  | print =>
      cases h
      exact bytes_concat c.log line.length c.byteCnt
  | read => cases h
  | write => cases h
  | close => cases h
  | _ =>
      cases h
      rfl

/-- **One step of the server**, for the counter. -/
theorem TotalInv.step (h : TotalInv s) (hinv : PreInv s) (hstep : PreStep s s') : TotalInv s' := by
  have hnone : ∀ τ, (none : Option Session) = some τ → τ.pc.Ok s.cnt := by
    intro τ hτ
    cases hτ
  have hself : ∀ {σ : Session}, σ.pc.Ok s.cnt → ∀ τ, some σ = some τ → τ.pc.Ok s.cnt := by
    intro σ hok τ hτ
    cases hτ
    exact hok
  cases hstep with
  | create i hmain hi =>
      rcases hinv.roles.created hmain with hsame | hz
      · simp only [hsame]
        exact ⟨h.count, h.total⟩
      · exact h.session hz rfl rfl rfl (Nat.le_refl _) rfl rfl hnone rfl
  | createEnd i hmain hi => exact ⟨h.count, h.total⟩
  | accept connfd sent ended hmain hfree =>
      refine ⟨h.count, ?_⟩
      show weight Conn.count (s.conns ++ [_]) = _
      rw [weight_concat]
      exact h.total
  | insertCall connfd hmain => exact ⟨h.count, h.total⟩
  | inside sb' hs hin => exact ⟨h.count, h.total⟩
  | insertReturn hi => exact ⟨h.count, h.total⟩
  | removeCall w hw => exact h.session hw rfl rfl rfl (Nat.le_refl _) rfl rfl hnone rfl
  | removeReturn w k connfd hw =>
      exact h.session (hinv.roles.removing hw rfl) rfl rfl rfl (Nat.le_refl _) rfl rfl
        (hself trivial) rfl
  | count w σ cnt' pc' hw hs =>
      have hget : (s.workers.map WorkerPc.session)[w]? = some (some σ) := by
        rw [List.getElem?_map, hw]
        rfl
      refine ⟨?_, ?_⟩
      · show CountInv cnt' ((s.workers.set w _).map WorkerPc.session)
        rw [List.map_set]
        exact h.count.step hget hs
      · have hset := weight_set WorkerPc.uncounted (.serving { σ with pc := pc' }) hw
        have hold := h.total
        have hmoved := step_total hs
        show weight Conn.count s.conns =
          bytes cnt'.log + weight WorkerPc.uncounted (s.workers.set w _)
        omega
  | clientSend c conn more hconn hend => exact h.conn hconn rfl rfl rfl rfl
  | clientEnd c conn hconn => exact h.conn hconn rfl rfl rfl rfl
  | fill w c k connfd line conn hw hopen hconn hk hsize hlen =>
      refine h.session hw rfl rfl rfl (Nat.le_refl _) rfl rfl (hself trivial) ?_
      exact congrArg (· + line.length) (weight_set_conn hconn rfl)
  | readByte w c connfd line rio b conn hw hopen hconn =>
      have hset := weight_set Conn.count { conn with received := conn.received ++ [b] } hconn
      simp only [Conn.count, List.length_append, List.length_singleton] at hset
      split
      · refine h.session hw rfl rfl rfl (Nat.le_refl _) rfl rfl (hself trivial) ?_
        show weight Conn.count (s.conns.set c _) + line.length =
          weight Conn.count s.conns + (line ++ [b]).length
        rw [List.length_append, List.length_singleton]
        omega
      · refine h.session hw rfl rfl rfl (Nat.le_refl _) rfl rfl (hself trivial) ?_
        show weight Conn.count (s.conns.set c _) + line.length =
          weight Conn.count s.conns + (line ++ [b]).length
        rw [List.length_append, List.length_singleton]
        omega
  | readEof w c connfd line conn hw hopen hconn hend hnil =>
      split
      next hline =>
        refine h.session hw rfl rfl rfl (Nat.le_refl _) rfl rfl (hself trivial) ?_
        show weight Conn.count s.conns + line.length = weight Conn.count s.conns + 0
        rw [hline]
        rfl
      next => exact h.session hw rfl rfl rfl (Nat.le_refl _) rfl rfl (hself trivial) rfl
  | write w c k connfd line rio conn hw hopen hconn hk hlen =>
      refine h.session hw rfl rfl rfl (Nat.le_refl _) rfl rfl (hself trivial) ?_
      exact weight_set_conn hconn rfl
  | written w connfd rio hw =>
      exact h.session hw rfl rfl rfl (Nat.le_refl _) rfl rfl (hself trivial) rfl
  | close w c σ conn hw hpc hopen hconn =>
      obtain ⟨fd, line, rio, pc⟩ := σ
      cases hpc
      refine h.session hw rfl rfl rfl (Nat.zero_le _) rfl rfl hnone ?_
      exact weight_set_conn hconn rfl

/-! ## §3. Every run. -/

theorem EchoInv.reachable (h : prethreaded.Reachable s) :
    s.sb.inserted.length < 2 ^ 31 - 1 → EchoInv s := by
  refine h.invariant (I := fun s => s.sb.inserted.length < 2 ^ 31 - 1 → EchoInv s) ?_ ?_
  · rintro s rfl -
    refine ⟨?_, ?_⟩
    · rintro w σ c conn ⟨-, hopen, -⟩
      cases hopen
    · intro c conn hconn
      simp [Pre.start] at hconn
  · intro s s' hreach ih hstep hfew
    have hfew₀ := Nat.lt_of_le_of_lt hstep.inserted_length hfew
    exact (ih hfew₀).step (PreInv.reachable hreach) hfew₀ hstep

theorem TotalInv.reachable (h : prethreaded.Reachable s) : TotalInv s := by
  refine h.invariant ?_ (fun _ _ hreach hinv hstep => hinv.step (PreInv.reachable hreach) hstep)
  rintro s rfl
  refine ⟨CountInv.start ?_, rfl⟩
  intro o ho
  obtain ⟨x, hx, rfl⟩ := List.mem_map.mp ho
  rw [List.eq_of_mem_replicate hx]
  rfl

/-- A removal got the connection with its number. -/
theorem PreInv.accepted_order (hinv : PreInv s) (hfew : s.sb.inserted.length < 2 ^ 31 - 1) {k : ℕ}
    {fd : ℤ} (hmem : (k, fd) ∈ s.sb.returned) : (s.conns.map Conn.fd)[k]? = some fd := by
  obtain ⟨f, r, hacc, hc⟩ := (sbuf_invariant (by decide) hinv.sbuf).2 hfew
  have hfd := hc.returned k fd hmem
  rcases Nat.lt_or_ge k f with hk | hk
  · obtain ⟨v, hv, hins⟩ := hc.loaded k hk
    rw [hfd] at hv
    cases hv
    rw [hinv.order, List.getElem?_append_left (List.getElem?_eq_some_iff.mp hins).1]
    exact hins
  · have hnone := hc.pending k hk (List.getElem?_eq_some_iff.mp hfd).1
    rw [hfd] at hnone
    cases hnone

/-- What the client of a connection sent, what was received of it and what was sent back. -/
theorem EchoInv.conn (hecho : EchoInv s) (hinv : PreInv s) {conn : Conn} (hmem : conn ∈ s.conns) :
    conn.echoed <+: conn.received ∧ conn.received <+: conn.sent ∧
      (conn.closed = true → conn.ended = true ∧ conn.echoed = conn.sent) := by
  obtain ⟨c, hc⟩ := List.getElem?_of_mem hmem
  by_cases hrest : conn.closed = true ∨ conn.fd ∉ s.workers.filterMap WorkerPc.hand
  · obtain ⟨hreceived, hsent, hfinished⟩ := hecho.resting c conn hc hrest
    refine ⟨⟨[], by rw [List.append_nil, hreceived]⟩, ⟨_, hsent.symm⟩, ?_⟩
    intro hclosed
    obtain ⟨hend, hunread⟩ := hfinished hclosed
    exact ⟨hend, by rw [hsent, hunread, List.append_nil, hreceived]⟩
  · push Not at hrest
    obtain ⟨hopen, hhand⟩ := hrest
    obtain ⟨x, hx, hfd⟩ := List.mem_filterMap.mp hhand
    obtain ⟨w, hw⟩ := List.getElem?_of_mem hx
    cases x with
    | serving σ =>
        have hfd : σ.fd = conn.fd := Option.some.inj hfd
        have htable := (hinv.table conn.fd c).mpr ⟨conn, hc, rfl, by simpa using hopen⟩
        have hflow := hecho.serving w σ c conn ⟨hw, by rw [hfd]; exact htable, hc⟩
        exact ⟨⟨_, hflow.received.symm⟩, ⟨_, hflow.sent.symm⟩,
          fun hclosed => absurd hclosed hopen⟩
    | _ => cases hfd

/-- **The prethreaded echo server**, in every state of every run with fewer than `2^31 - 1`
connections:

  • no two workers serve one descriptor, and the descriptor of a worker is open,
  • an open connection is with one worker, in the buffer, or on its way into or out of it,
  • the removals from the buffer, in their order, got the connections in the order they were
    accepted,
  • what is sent back to a client is a head of what was received from it, and that of what it
    has sent; its connection is closed only when it has ended its side and all was sent back,
  • each total that was printed is the number of bytes printed so far, and when no worker has
    bytes that are not printed `byte_cnt` is the number of bytes received from all clients. -/
theorem prethreaded_serves (h : prethreaded.Reachable s) (hfew : s.conns.length < 2 ^ 31 - 1) :
    ((s.workers.filterMap WorkerPc.hand).Nodup ∧
      ∀ fd ∈ s.workers.filterMap WorkerPc.hand, ∃ c conn, s.table fd = some c ∧
        s.conns[c]? = some conn ∧ conn.fd = fd ∧ conn.closed = false) ∧
    (s.conns.filterMap Conn.openFd).Perm (s.workers.filterMap WorkerPc.hand ++
      (s.sb.threads.filterMap Pc.got ++ (s.sb.buffered ++
        (s.main.hand ++ waiting s.sb.threads)))) ∧
    (∀ k fd, (k, fd) ∈ s.sb.returned → (s.conns.map Conn.fd)[k]? = some fd) ∧
    (∀ conn ∈ s.conns, conn.echoed <+: conn.received ∧ conn.received <+: conn.sent ∧
      (conn.closed = true → conn.ended = true ∧ conn.echoed = conn.sent)) ∧
    Exact s.cnt.log ∧
    (s.cnt.once = .done → 0 < s.cnt.mutex → weight WorkerPc.uncounted s.workers = 0 →
      s.cnt.byteCnt = int32 (weight Conn.count s.conns)) := by
  have hinv := PreInv.reachable h
  have hlen : s.sb.inserted.length ≤ s.conns.length := by
    have horder := congrArg List.length hinv.order
    rw [List.length_map, List.length_append] at horder
    omega
  have hfew' : s.sb.inserted.length < 2 ^ 31 - 1 := Nat.lt_of_le_of_lt hlen hfew
  have hecho := EchoInv.reachable h hfew'
  have htotal := TotalInv.reachable h
  refine ⟨⟨(List.nodup_append.mp (hinv.owned_nodup hfew')).1, ?_⟩, hinv.owned hfew', ?_, ?_,
    htotal.count.exact, ?_⟩
  · intro fd hfd
    exact hinv.open_of_owned hfew' (List.mem_append_left _ hfd)
  · intro k fd hmem
    exact hinv.accepted_order hfew' hmem
  · intro conn hmem
    exact hecho.conn hinv hmem
  · intro hdone hfree hall
    rw [htotal.count.byteCnt_eq hdone hfree, htotal.total, hall, Nat.add_zero]

theorem inside_of_set {ts : List Pc} {i : ℕ} {x y : Pc} (hx : ts[i]? = some x) (hout : x ≠ .idle)
    (hout' : y ≠ .idle) (k : ℕ) : ts[k]? = some .idle ↔ (ts.set i y)[k]? = some .idle := by
  by_cases hk : k = i
  · subst hk
    rw [hx, List.getElem?_set_self (List.getElem?_eq_some_iff.mp hx).1]
    simp [hout, hout']
  · rw [List.getElem?_set_ne (Ne.symm hk)]

/-- A run that serves a client which sends `"a\n"` and ends: the first worker takes its
connection, which has number 5, sends the line back and closes. -/
theorem prethreaded_serves_oneClient : ∃ s, prethreaded.Reachable s ∧
    s.conns.length < 2 ^ 31 - 1 ∧ s.table 5 = none ∧ s.cnt.log = [(2, 2)] ∧
    ∃ conn ∈ s.conns, conn.sent = [97, 10] ∧ conn.closed = true ∧ conn.echoed = conn.sent := by
  have hstart : prethreaded.Reachable Pre.start := System.Reachable.of_init rfl
  have hcreated := ((((hstart.tail (PreStep.create 0 rfl (by decide))).tail
    (PreStep.create 1 rfl (by decide))).tail (PreStep.create 2 rfl (by decide))).tail
    (PreStep.create 3 rfl (by decide))).tail (PreStep.createEnd 4 rfl (by decide))
  have hcalled := (hcreated.tail (PreStep.accept 5 [97] false rfl rfl)).tail
    (PreStep.insertCall 5 rfl)
  have hstored := ((hcalled.tail
    (PreStep.inside _ (SbufStep.pSlots 0 5 rfl (by decide))
      (inside_of_set rfl (by simp) (by simp)))).tail
    (PreStep.inside _ (SbufStep.insLock 0 5 rfl (by decide))
      (inside_of_set rfl (by simp) (by simp)))).tail
    (PreStep.inside _ (SbufStep.store 0 5 rfl)
      (inside_of_set rfl (by simp) (by simp)))
  have hinserted := (hstored.tail
    (PreStep.inside _ (SbufStep.insUnlock 0 rfl)
      (inside_of_set rfl (by simp) (by simp)))).tail
    (PreStep.insertReturn rfl)
  have hloaded := (((hinserted.tail (PreStep.removeCall 0 rfl)).tail
    (PreStep.inside _ (SbufStep.pItems 1 rfl (by decide))
      (inside_of_set rfl (by simp) (by simp)))).tail
    (PreStep.inside _ (SbufStep.remLock 1 rfl (by decide))
      (inside_of_set rfl (by simp) (by simp)))).tail
    (PreStep.inside _ (SbufStep.load 1 0 rfl)
      (inside_of_set rfl (by simp) (by simp)))
  have hremoved := (hloaded.tail
    (PreStep.inside _ (SbufStep.remUnlock 1 0 5 rfl)
      (inside_of_set rfl (by simp) (by simp)))).tail
    (PreStep.removeReturn 0 0 5 rfl)
  have hready := (((hremoved.tail (PreStep.count 0 _ _ _ rfl rfl)).tail
    (PreStep.count 0 _ _ _ rfl rfl)).tail (PreStep.count 0 _ _ _ rfl rfl)).tail
    (PreStep.count 0 _ _ _ rfl rfl)
  have hread := (((((hready.tail (PreStep.fill 0 0 1 5 [] _ rfl rfl rfl (by decide) (by decide)
    (by decide))).tail (PreStep.readByte 0 0 5 [] [] 97 _ rfl rfl rfl)).tail
    (PreStep.clientSend 0 _ [10] rfl rfl)).tail (PreStep.clientEnd 0 _ rfl)).tail
    (PreStep.fill 0 0 1 5 [97] _ rfl rfl rfl (by decide) (by decide) (by decide))).tail
    (PreStep.readByte 0 0 5 [97] [] 10 _ rfl rfl rfl)
  have hcounted := ((((hread.tail (PreStep.count 0 _ _ _ rfl rfl)).tail
    (PreStep.count 0 _ _ _ rfl rfl)).tail (PreStep.count 0 _ _ _ rfl rfl)).tail
    (PreStep.count 0 _ _ _ rfl rfl)).tail (PreStep.count 0 _ _ _ rfl rfl)
  have hclosed := (((hcounted.tail
    (PreStep.write 0 0 2 5 [97, 10] [] _ rfl rfl rfl (by decide) (by decide))).tail
    (PreStep.written 0 5 [] rfl)).tail (PreStep.readEof 0 0 5 [] _ rfl rfl rfl rfl rfl)).tail
    (PreStep.close 0 0 _ _ rfl rfl rfl rfl)
  have hlen : (1 : ℕ) < 2 ^ 31 - 1 := by decide
  have hserved := (prethreaded_serves hclosed hlen).2.2.2.1 _ (List.mem_singleton_self _)
  exact ⟨_, hclosed, hlen, rfl, rfl, _, List.mem_singleton_self _, rfl, rfl, (hserved.2.2 rfl).2⟩

end ComputerScience.Sync
