/-
  ComputerScience.Sync.Prethreaded
  ────────────────────────────────
  **THE PRETHREADED ECHO SERVER** (`25-sync-advanced/echoservert_pre.c`).

  The main thread accepts connections and puts their descriptors into the bounded buffer of
  `sbuf.c`; four workers take descriptors out of it, serve each with `echo_cnt` and close it.
  The kernel's part is its table of descriptors: `Accept` returns a number that is not in use,
  and a number that was closed may come back for another connection.

  A descriptor is only a number, so nothing but the protocol keeps two workers from serving
  one connection, or one worker from closing the connection of another.  The invariant is a
  conservation law, as a permutation of lists:

      open descriptors  =  in the hands of workers
                           + taken out of the buffer, not yet returned by `sbuf_remove`
                           + in the buffer
                           + in the hand of the main thread

  The left side has no duplicates, so neither has the right one.

  The steps of the buffer are those of `SbufStep`, the steps of the counter those of
  `EchoCnt.step`.  A client sends what it wants and when it wants, until it ends its side of
  the connection; the bytes stay in the kernel until the worker reads some of them into its
  `rio_buf`, out of which `Rio_readlineb` takes one at a time.  A failing system call, which
  ends the process or the connection, is left out.

  Main results:
    • `PreInv.step`, `PreInv.reachable` — one step, and every state of every run,
    • `PreInv.owned`, `PreInv.owned_nodup` — the conservation law.
-/
import ComputerScience.Rio.Buffered
import ComputerScience.Sync.Sbuf
import ComputerScience.Sync.EchoCnt

namespace ComputerScience.Sync

open ComputerScience.Lib
open ComputerScience.Rio (LineDone RIO_BUFSIZE)

/-! ## §1. The server. -/

def NTHREADS : ℕ := 4

def SBUFSIZE : ℤ := 16

/-- A connection. -/
structure Conn where
  fd : ℤ
  /-- what the client has sent -/
  sent : List UInt8
  /-- the client has ended its side -/
  ended : Bool
  /-- what is still in the kernel -/
  unread : List UInt8
  /-- what `Rio_readlineb` has taken out of `rio_buf` -/
  received : List UInt8
  /-- what was written back -/
  echoed : List UInt8
  /-- the server has closed it -/
  closed : Bool

/-- The main thread. -/
inductive ServerPc where
  /-- at the test of the first loop -/
  | create (i : ℕ)
  | accept
  /-- before `sbuf_insert(&sbuf, connfd)` -/
  | insert (connfd : ℤ)
  /-- in `sbuf_insert` -/
  | inserting
  deriving DecidableEq, Repr

/-- A worker. -/
inductive WorkerPc where
  /-- not created yet -/
  | unborn
  /-- before `sbuf_remove(&sbuf)` -/
  | remove
  /-- in `sbuf_remove` -/
  | removing
  /-- in `echo_cnt`, or before the `Close` -/
  | serving (σ : Session)

/-- The server.  In the buffer the main thread is thread 0 and worker `w` thread `w + 1`. -/
structure Pre where
  sb : Sbuf
  main : ServerPc
  workers : List WorkerPc
  /-- The connections in the order they were accepted. -/
  conns : List Conn
  /-- The kernel's table: the connection of an open descriptor. -/
  table : ℤ → Option ℕ
  cnt : EchoCnt

/-- One step of one thread. -/
inductive PreStep (s : Pre) : Pre → Prop where
  | create (i : ℕ) (h : s.main = .create i) (hi : i < NTHREADS) :
      PreStep s { s with main := .create (i + 1), workers := s.workers.set i .remove }
  | createEnd (i : ℕ) (h : s.main = .create i) (hi : NTHREADS ≤ i) :
      PreStep s { s with main := .accept }
  /-- The client of the new connection may have sent something already. -/
  | accept (connfd : ℤ) (sent : List UInt8) (ended : Bool) (h : s.main = .accept)
      (hfree : s.table connfd = none) :
      PreStep s { s with
        main := .insert connfd
        conns := s.conns ++ [⟨connfd, sent, ended, sent, [], [], false⟩]
        table := Function.update s.table connfd (some s.conns.length) }
  | insertCall (connfd : ℤ) (h : s.main = .insert connfd) :
      PreStep s { s with
        main := .inserting
        sb := { s.sb with threads := s.sb.threads.set 0 (.insSlots connfd) } }
  /-- A step inside `sbuf_insert` or `sbuf_remove`: nobody enters or leaves them. -/
  | inside (sb' : Sbuf) (h : SbufStep s.sb sb')
      (hin : ∀ i : ℕ, s.sb.threads[i]? = some .idle ↔ sb'.threads[i]? = some .idle) :
      PreStep s { s with sb := sb' }
  | insertReturn (h : s.sb.threads[0]? = some .insItems) :
      PreStep s { s with
        main := .accept
        sb := { s.sb with
          sp := { s.sb.sp with items := s.sb.sp.items + 1 }
          threads := s.sb.threads.set 0 .idle } }
  | removeCall (w : ℕ) (h : s.workers[w]? = some .remove) :
      PreStep s { s with
        workers := s.workers.set w .removing
        sb := { s.sb with threads := s.sb.threads.set (w + 1) .remItems } }
  | removeReturn (w k : ℕ) (connfd : ℤ)
      (h : s.sb.threads[w + 1]? = some (.remSlots k connfd)) :
      PreStep s { s with
        workers := s.workers.set w (.serving ⟨connfd, [], [], .once⟩)
        sb := { s.sb with
          sp := { s.sb.sp with slots := s.sb.sp.slots + 1 }
          threads := s.sb.threads.set (w + 1) .idle
          returned := s.sb.returned ++ [(k, connfd)] } }
  | count (w : ℕ) (σ : Session) (cnt' : EchoCnt) (pc' : EchoPc)
      (h : s.workers[w]? = some (.serving σ))
      (hstep : s.cnt.step σ.line.length σ.pc = some (cnt', pc')) :
      PreStep s { s with
        workers := s.workers.set w (.serving { σ with pc := pc' })
        cnt := cnt' }
  | clientSend (c : ℕ) (conn : Conn) (more : List UInt8) (hconn : s.conns[c]? = some conn)
      (hend : conn.ended = false) :
      PreStep s { s with
        conns := s.conns.set c { conn with
          sent := conn.sent ++ more, unread := conn.unread ++ more } }
  | clientEnd (c : ℕ) (conn : Conn) (hconn : s.conns[c]? = some conn) :
      PreStep s { s with conns := s.conns.set c { conn with ended := true } }
  /-- The `read` in `rio_read`, when `rio_buf` is empty. -/
  | fill (w c k : ℕ) (connfd : ℤ) (line : List UInt8) (conn : Conn)
      (h : s.workers[w]? = some (.serving ⟨connfd, line, [], .read⟩))
      (hopen : s.table connfd = some c) (hconn : s.conns[c]? = some conn) (hk : 0 < k)
      (hsize : k ≤ RIO_BUFSIZE) (hlen : k ≤ conn.unread.length) :
      PreStep s { s with
        workers := s.workers.set w (.serving ⟨connfd, line, conn.unread.take k, .read⟩)
        conns := s.conns.set c { conn with unread := conn.unread.drop k } }
  /-- `Rio_readlineb` stores one more byte, and returns when the line is done. -/
  | readByte (w c : ℕ) (connfd : ℤ) (line rio : List UInt8) (b : UInt8) (conn : Conn)
      (h : s.workers[w]? = some (.serving ⟨connfd, line, b :: rio, .read⟩))
      (hopen : s.table connfd = some c) (hconn : s.conns[c]? = some conn) :
      PreStep s { s with
        workers := s.workers.set w
          (.serving ⟨connfd, line ++ [b], rio, if LineDone (line ++ [b]) then .lock else .read⟩)
        conns := s.conns.set c { conn with received := conn.received ++ [b] } }
  /-- The `read` returns 0, and `Rio_readlineb` what it has stored. -/
  | readEof (w c : ℕ) (connfd : ℤ) (line : List UInt8) (conn : Conn)
      (h : s.workers[w]? = some (.serving ⟨connfd, line, [], .read⟩))
      (hopen : s.table connfd = some c) (hconn : s.conns[c]? = some conn)
      (hend : conn.ended = true) (hnil : conn.unread = []) :
      PreStep s { s with
        workers := s.workers.set w
          (.serving ⟨connfd, line, [], if line = [] then .close else .lock⟩) }
  /-- A `write` in `Rio_writen`. -/
  | write (w c k : ℕ) (connfd : ℤ) (line rio : List UInt8) (conn : Conn)
      (h : s.workers[w]? = some (.serving ⟨connfd, line, rio, .write⟩))
      (hopen : s.table connfd = some c) (hconn : s.conns[c]? = some conn) (hk : 0 < k)
      (hlen : k ≤ line.length) :
      PreStep s { s with
        workers := s.workers.set w (.serving ⟨connfd, line.drop k, rio, .write⟩)
        conns := s.conns.set c { conn with echoed := conn.echoed ++ line.take k } }
  | written (w : ℕ) (connfd : ℤ) (rio : List UInt8)
      (h : s.workers[w]? = some (.serving ⟨connfd, [], rio, .write⟩)) :
      PreStep s { s with workers := s.workers.set w (.serving ⟨connfd, [], rio, .read⟩) }
  | close (w c : ℕ) (σ : Session) (conn : Conn)
      (h : s.workers[w]? = some (.serving σ)) (hpc : σ.pc = .close)
      (hopen : s.table σ.fd = some c) (hconn : s.conns[c]? = some conn) :
      PreStep s { s with
        workers := s.workers.set w .remove
        conns := s.conns.set c { conn with closed := true }
        table := Function.update s.table σ.fd none }

/-- The server behind `Open_listenfd` and `sbuf_init`. -/
def Pre.start : Pre where
  sb := sbufInit SBUFSIZE (List.replicate (NTHREADS + 1) .idle)
  main := .create 0
  workers := List.replicate NTHREADS .unborn
  conns := []
  table := fun _ => none
  cnt := EchoCnt.start

def prethreaded : System Pre where
  init s := s = Pre.start
  step := PreStep

/-! ## §2. The buffer. -/

/-- What a thread of the buffer is doing. -/
inductive Kind where
  | outside
  | insert
  | remove
  deriving DecidableEq

def Pc.kind : Pc → Kind
  | .idle => .outside
  | .insSlots _ | .insMutex _ | .insStore _ | .insUnlock | .insItems => .insert
  | .remItems | .remMutex | .remLoad _ | .remUnlock _ _ | .remSlots _ _ => .remove

/-- The item of an insertion that is not in the history yet. -/
def Pc.waiting : Pc → Option ℤ
  | .insSlots v | .insMutex v => some v
  | _ => none

/-- The item of a removal that has loaded and not returned. -/
def Pc.got : Pc → Option ℤ
  | .remUnlock _ v | .remSlots _ v => some v
  | _ => none

/-- The removals have taken the first items, one each. -/
def Taken (s : Sbuf) : Prop :=
  (s.returned.map Prod.snd ++ s.threads.filterMap Pc.got).Perm (s.inserted.take s.sp.front.toNat)

theorem SbufStep.inserted_length {s s' : Sbuf} (h : SbufStep s s') :
    s.inserted.length ≤ s'.inserted.length := by
  cases h with
  | insLock i item h hp =>
      show _ ≤ (s.inserted ++ [item]).length
      rw [List.length_append]
      omega
  | _ => exact Nat.le_refl _

theorem Taken.step {n : ℤ} {s s' : Sbuf} (h : Taken s) (hinv : SbufInv n s)
    (hstep : SbufStep s s') (hfew : s'.inserted.length < 2 ^ 31 - 1) : Taken s' := by
  obtain ⟨f, r, hacc, hc⟩ := hinv.2 (Nat.lt_of_le_of_lt hstep.inserted_length hfew)
  have hquiet : ∀ {i : ℕ} {x : Pc} (y : Pc), s.threads[i]? = some x → y.got = x.got →
      (s.threads.set i y).filterMap Pc.got = s.threads.filterMap Pc.got :=
    fun y hi hy => filterMap_set_eq hi hy
  unfold Taken at h ⊢
  cases hstep with
  | callInsert i item hi => simpa only [hquiet (.insSlots item) hi rfl] using h
  | pSlots i item hi hp => simpa only [hquiet (.insMutex item) hi rfl] using h
  | insLock i item hi hp =>
      -- the first `front` items are as before
      have hle : s.sp.front.toNat ≤ s.inserted.length := by
        have h₁ := hacc.front_eq
        have h₂ := hacc.items_eq
        have h₃ := hacc.inserted_eq
        omega
      simpa only [hquiet (.insStore item) hi rfl, List.take_append_of_le_length hle] using h
  | store i item hi => simpa only [hquiet .insUnlock hi rfl] using h
  | insUnlock i hi => simpa only [hquiet .insItems hi rfl] using h
  | vItems i hi => simpa only [hquiet .idle hi rfl] using h
  | callRemove i hi => simpa only [hquiet .remItems hi rfl] using h
  | pItems i hi hp => simpa only [hquiet .remMutex hi rfl] using h
  | remLock i hi hp => simpa only [hquiet (.remLoad s.removals.length) hi rfl] using h
  | load i k hi =>
      have hlen : s.inserted.length < 2 ^ 31 - 1 := hfew
      have hr := hacc.inserted_eq
      have hlt := hacc.tokens.load_lt hi
      obtain ⟨v, hv, hb⟩ := hc.next_cell hacc hi (by omega)
      have hfront : (incr s.sp.front).toNat = f + 1 := by
        rw [hacc.front_eq, incr_of_lt (by omega)]
        omega
      have hf : s.sp.front.toNat = f := by
        rw [hacc.front_eq]
        omega
      simp only [hb, Option.getD_some]
      rw [hfront, List.take_add_one, hv]
      rw [hf] at h
      refine ((filterMap_set_perm (f := Pc.got) hi rfl rfl).append_left _).trans ?_
      refine List.perm_middle.trans ?_
      exact (h.cons v).trans (List.perm_append_singleton v _).symm
  | remUnlock i k item hi => simpa only [hquiet (.remSlots k item) hi rfl] using h
  | vSlots i k item hi =>
      show ((s.returned ++ [(k, item)]).map Prod.snd ++ _).Perm _
      rw [List.map_append, List.append_assoc]
      refine List.Perm.trans ?_ h
      exact ((filterMap_set_perm_of_none (f := Pc.got) hi rfl rfl).append_left _).symm

/-- What a step inside the routines does to the threads and the histories: one thread goes on,
and an insertion may enter its history. -/
theorem inside_cases {s s' : Sbuf} (h : SbufStep s s')
    (hin : ∀ i : ℕ, s.threads[i]? = some .idle ↔ s'.threads[i]? = some .idle) :
    s'.returned = s.returned ∧ ∃ (i : ℕ) (x y : Pc), s.threads[i]? = some x ∧
      s'.threads = s.threads.set i y ∧ y.kind = x.kind ∧
      (s'.inserted = s.inserted ∧ y.waiting = x.waiting ∨
        ∃ v, x = .insMutex v ∧ y = .insStore v ∧ s'.inserted = s.inserted ++ [v]) := by
  have hself : ∀ {i : ℕ} {x : Pc} (y : Pc), s.threads[i]? = some x →
      (s.threads.set i y)[i]? = some y :=
    fun y hi => List.getElem?_set_self (List.getElem?_eq_some_iff.mp hi).1
  cases h with
  | callInsert i item hi =>
      have hidle := (hin i).mp hi
      rw [hself _ hi] at hidle
      cases hidle
  | pSlots i item hi hp => exact ⟨rfl, i, _, _, hi, rfl, rfl, .inl ⟨rfl, rfl⟩⟩
  | insLock i item hi hp => exact ⟨rfl, i, _, _, hi, rfl, rfl, .inr ⟨item, rfl, rfl, rfl⟩⟩
  | store i item hi => exact ⟨rfl, i, _, _, hi, rfl, rfl, .inl ⟨rfl, rfl⟩⟩
  | insUnlock i hi => exact ⟨rfl, i, _, _, hi, rfl, rfl, .inl ⟨rfl, rfl⟩⟩
  | vItems i hi =>
      have hidle := (hin i).mpr (hself _ hi)
      rw [hi] at hidle
      cases hidle
  | callRemove i hi =>
      have hidle := (hin i).mp hi
      rw [hself _ hi] at hidle
      cases hidle
  | pItems i hi hp => exact ⟨rfl, i, _, _, hi, rfl, rfl, .inl ⟨rfl, rfl⟩⟩
  | remLock i hi hp => exact ⟨rfl, i, _, _, hi, rfl, rfl, .inl ⟨rfl, rfl⟩⟩
  | load i k hi => exact ⟨rfl, i, _, _, hi, rfl, rfl, .inl ⟨rfl, rfl⟩⟩
  | remUnlock i k item hi => exact ⟨rfl, i, _, _, hi, rfl, rfl, .inl ⟨rfl, rfl⟩⟩
  | vSlots i k item hi =>
      have hidle := (hin i).mpr (hself _ hi)
      rw [hi] at hidle
      cases hidle

/-! ## §3. Who is where. -/

def ServerPc.kind : ServerPc → Kind
  | .inserting => .insert
  | _ => .outside

def WorkerPc.kind : WorkerPc → Kind
  | .removing => .remove
  | _ => .outside

/-- The descriptor a worker serves. -/
def WorkerPc.hand : WorkerPc → Option ℤ
  | .serving σ => some σ.fd
  | _ => none

def WorkerPc.session : WorkerPc → Option Session
  | .serving σ => some σ
  | _ => none

/-- The descriptor the main thread has accepted and not passed to `sbuf_insert`. -/
def ServerPc.hand : ServerPc → List ℤ
  | .insert connfd => [connfd]
  | _ => []

/-- The descriptor it has passed, while that is not in the history. -/
def waiting (threads : List Pc) : List ℤ := (threads[0]?.bind Pc.waiting).toList

theorem waiting_set_zero {ts : List Pc} (h : 0 < ts.length) (y : Pc) :
    waiting (ts.set 0 y) = y.waiting.toList := by
  rw [waiting, List.getElem?_set_self h, Option.bind_some]

theorem waiting_set_succ (ts : List Pc) (w : ℕ) (y : Pc) :
    waiting (ts.set (w + 1) y) = waiting ts := by
  rw [waiting, List.getElem?_set_ne (Nat.succ_ne_zero w), waiting]

def Conn.closedFd (c : Conn) : Option ℤ := if c.closed then some c.fd else none

def Conn.openFd (c : Conn) : Option ℤ := if c.closed then none else some c.fd

/-- The threads of the server and those of the buffer. -/
structure Roles (s : Pre) : Prop where
  main : s.sb.threads[0]?.map Pc.kind = some s.main.kind
  worker : ∀ (w : ℕ) x, s.workers[w]? = some x → s.sb.threads[w + 1]?.map Pc.kind = some x.kind
  unborn : ∀ i, s.main = .create i → ∀ (w : ℕ) x, i ≤ w → s.workers[w]? = some x → x = .unborn
  length : s.sb.threads.length = s.workers.length + 1

variable {s s' : Pre}

/-- A step of worker `w`, inside or outside the buffer. -/
theorem Roles.set_worker (h : Roles s) {w : ℕ} {x x' : WorkerPc} {y : Pc}
    (hx : s.workers[w]? = some x) (hborn : x ≠ .unborn) (hkind : y.kind = x'.kind)
    (hmain : s'.main = s.main) (hworkers : s'.workers = s.workers.set w x')
    (hthreads : s'.sb.threads = s.sb.threads.set (w + 1) y) : Roles s' := by
  have hw := (List.getElem?_eq_some_iff.mp hx).1
  have hlen := h.length
  refine ⟨?_, ?_, ?_, ?_⟩
  · rw [hthreads, hmain, List.getElem?_set_ne (Nat.succ_ne_zero w)]
    exact h.main
  · intro k z hz
    rw [hworkers] at hz
    rw [hthreads]
    rcases getElem?_set_cases hz with ⟨rfl, rfl⟩ | ⟨hne, hz⟩
    · rw [List.getElem?_set_self (by omega), Option.map_some, hkind]
    · rw [List.getElem?_set_ne (by omega)]
      exact h.worker k z hz
  · intro i hi k z hik hz
    rw [hmain] at hi
    rw [hworkers] at hz
    rcases getElem?_set_cases hz with ⟨rfl, -⟩ | ⟨-, hz⟩
    · exact absurd (h.unborn i hi k x hik hx) hborn
    · exact h.unborn i hi k z hik hz
  · rw [hthreads, hworkers, List.length_set, List.length_set]
    exact hlen

/-- A step of worker `w` outside the buffer. -/
theorem Roles.set_session (h : Roles s) {w : ℕ} {x x' : WorkerPc} (hx : s.workers[w]? = some x)
    (hborn : x ≠ .unborn) (hmain : s'.main = s.main)
    (hworkers : s'.workers = s.workers.set w x') (hthreads : s'.sb.threads = s.sb.threads)
    (hkind : x'.kind = x.kind) : Roles s' := by
  obtain ⟨y, hy, hyx⟩ := Option.map_eq_some_iff.mp (h.worker w x hx)
  refine h.set_worker hx hborn (hyx.trans hkind.symm) hmain hworkers ?_
  obtain ⟨hlt, hget⟩ := List.getElem?_eq_some_iff.mp hy
  rw [hthreads, ← hget, List.set_getElem_self]

/-- A step of the main thread behind the first loop. -/
theorem Roles.set_main (h : Roles s) {y : Pc} (hkind : y.kind = s'.main.kind)
    (hcreated : ∀ i, s'.main ≠ .create i) (hworkers : s'.workers = s.workers)
    (hthreads : s'.sb.threads = s.sb.threads.set 0 y) : Roles s' := by
  have hlen := h.length
  refine ⟨?_, ?_, fun i hi => absurd hi (hcreated i), ?_⟩
  · rw [hthreads, List.getElem?_set_self (by omega), Option.map_some, hkind]
  · intro w x hx
    rw [hworkers] at hx
    rw [hthreads, List.getElem?_set_ne (Nat.succ_ne_zero w).symm]
    exact h.worker w x hx
  · rw [hthreads, hworkers, List.length_set]
    exact hlen

/-- A step inside the buffer. -/
theorem Roles.inside (h : Roles s) {i : ℕ} {x y : Pc} (hx : s.sb.threads[i]? = some x)
    (hkind : y.kind = x.kind) (hmain : s'.main = s.main) (hworkers : s'.workers = s.workers)
    (hthreads : s'.sb.threads = s.sb.threads.set i y) : Roles s' := by
  have hsame : ∀ k : ℕ, s'.sb.threads[k]?.map Pc.kind = s.sb.threads[k]?.map Pc.kind := by
    intro k
    rw [hthreads, ← List.getElem?_map, ← List.getElem?_map, map_set_eq hx hkind]
  refine ⟨?_, ?_, ?_, ?_⟩
  · rw [hsame, hmain]
    exact h.main
  · intro w z hz
    rw [hworkers] at hz
    rw [hsame]
    exact h.worker w z hz
  · rw [hmain, hworkers]
    exact h.unborn
  · rw [hthreads, hworkers, List.length_set]
    exact h.length

theorem kind_eq_outside {x : Pc} (h : x.kind = .outside) : x = .idle := by
  cases x with
  | idle => rfl
  | _ => cases h

theorem Roles.idle (h : Roles s) (hmain : s.main.kind = .outside) :
    s.sb.threads[0]? = some .idle := by
  obtain ⟨x, hx, hkind⟩ := Option.map_eq_some_iff.mp h.main
  rw [hx, kind_eq_outside (hkind.trans hmain)]

theorem Roles.worker_idle (h : Roles s) {w : ℕ} {x : WorkerPc} (hw : s.workers[w]? = some x)
    (hx : x.kind = .outside) : s.sb.threads[w + 1]? = some .idle := by
  obtain ⟨y, hy, hkind⟩ := Option.map_eq_some_iff.mp (h.worker w x hw)
  rw [hy, kind_eq_outside (hkind.trans hx)]

theorem Roles.waiting_eq_nil (h : Roles s) (hmain : s.main.kind = .outside) :
    waiting s.sb.threads = [] := by
  rw [waiting, h.idle hmain]
  rfl

/-- While the main thread is in the buffer it has no descriptor in its hand. -/
theorem Roles.hand_eq_nil (h : Roles s) {x : Pc} (hx : s.sb.threads[0]? = some x)
    (hkind : x.kind = .insert) : s.main.hand = [] := by
  have hm := h.main
  rw [hx, Option.map_some, hkind, Option.some.injEq] at hm
  cases hmain : s.main with
  | inserting => rfl
  | _ =>
      rw [hmain] at hm
      cases hm

/-- The worker whose removal returns was in `sbuf_remove`. -/
theorem Roles.removing (h : Roles s) {w : ℕ} {x : Pc} (hw : s.sb.threads[w + 1]? = some x)
    (hx : x.kind = .remove) : s.workers[w]? = some .removing := by
  have hlt := (List.getElem?_eq_some_iff.mp hw).1
  have hlen := h.length
  have hz : s.workers[w]? = some s.workers[w] := List.getElem?_eq_getElem (by omega)
  have hkind := h.worker w _ hz
  rw [hw, Option.map_some, hx, Option.some.injEq] at hkind
  rw [hz]
  cases hpc : s.workers[w] with
  | removing => rfl
  | _ =>
      rw [hpc] at hkind
      cases hkind

theorem Roles.not_insert (h : Roles s) (w : ℕ) (x : Pc) (hkind : x.kind = .insert) :
    s.sb.threads[w + 1]? ≠ some x := by
  intro hw
  have hlt := (List.getElem?_eq_some_iff.mp hw).1
  have hlen := h.length
  have hz : s.workers[w]? = some s.workers[w] := List.getElem?_eq_getElem (by omega)
  have hworker := h.worker w _ hz
  rw [hw, Option.map_some, hkind, Option.some.injEq] at hworker
  cases hpc : s.workers[w] with
  | _ =>
      rw [hpc] at hworker
      cases hworker

/-- The worker that is created was not there before. -/
theorem Roles.created (h : Roles s) {i : ℕ} (hmain : s.main = .create i) :
    s.workers.set i .remove = s.workers ∨ s.workers[i]? = some .unborn := by
  obtain hnone | ⟨z, hz⟩ := Option.eq_none_or_eq_some s.workers[i]?
  · exact .inl (List.set_eq_of_length_le (List.getElem?_eq_none_iff.mp hnone))
  · right
    rw [hz, h.unborn i hmain i z (Nat.le_refl i) hz]

/-- **Who is where**, one step of the server. -/
theorem Roles.step (h : Roles s) (hstep : PreStep s s') : Roles s' := by
  cases hstep with
  | create i hmain hi =>
      refine ⟨?_, ?_, ?_, ?_⟩
      · have hm := h.main
        rw [hmain] at hm
        exact hm
      · intro w x hx
        rcases getElem?_set_cases hx with ⟨rfl, rfl⟩ | ⟨-, hx⟩
        · obtain ⟨z, hz⟩ : ∃ z, s.workers[w]? = some z := by
            have hlt := (List.getElem?_eq_some_iff.mp hx).1
            rw [List.length_set] at hlt
            exact ⟨_, List.getElem?_eq_getElem hlt⟩
          have hold := h.worker w z hz
          rw [h.unborn w hmain w z (Nat.le_refl w) hz] at hold
          exact hold
        · exact h.worker w x hx
      · intro i' hi' w x hw hx
        cases hi'
        rcases getElem?_set_cases hx with ⟨rfl, -⟩ | ⟨-, hx⟩
        · omega
        · exact h.unborn i hmain w x (by omega) hx
      · rw [List.length_set]
        exact h.length
  | createEnd i hmain hi =>
      refine ⟨?_, h.worker, ?_, h.length⟩
      · have hm := h.main
        rw [hmain] at hm
        exact hm
      · intro i' hi'
        cases hi'
  | accept connfd sent ended hmain hfree =>
      refine ⟨?_, h.worker, ?_, h.length⟩
      · have hm := h.main
        rw [hmain] at hm
        exact hm
      · intro i' hi'
        cases hi'
  | insertCall connfd hmain =>
      exact h.set_main rfl (fun i hi => by cases hi) rfl rfl
  | inside sb' hs hin =>
      obtain ⟨-, i, x, y, hx, hthreads, hkind, -⟩ := inside_cases hs hin
      exact h.inside hx hkind rfl rfl hthreads
  | insertReturn hi => exact h.set_main rfl (fun i hi => by cases hi) rfl rfl
  | removeCall w hw => exact h.set_worker hw (by simp) rfl rfl rfl rfl
  | removeReturn w k connfd hw =>
      exact h.set_worker (h.removing hw rfl) (by simp) rfl rfl rfl rfl
  | count w σ cnt' pc' hw hs => exact h.set_session hw (by simp) rfl rfl rfl rfl
  | clientSend c conn more hconn hend => exact ⟨h.main, h.worker, h.unborn, h.length⟩
  | clientEnd c conn hconn => exact ⟨h.main, h.worker, h.unborn, h.length⟩
  | fill w c k connfd line conn hw hopen hconn hk hsize hlen =>
      exact h.set_session hw (by simp) rfl rfl rfl rfl
  | readByte w c connfd line rio b conn hw hopen hconn =>
      exact h.set_session hw (by simp) rfl rfl rfl rfl
  | readEof w c connfd line conn hw hopen hconn hend hnil =>
      exact h.set_session hw (by simp) rfl rfl rfl rfl
  | write w c k connfd line rio conn hw hopen hconn hk hlen =>
      exact h.set_session hw (by simp) rfl rfl rfl rfl
  | written w connfd rio hw => exact h.set_session hw (by simp) rfl rfl rfl rfl
  | close w c σ conn hw hpc hopen hconn => exact h.set_session hw (by simp) rfl rfl rfl rfl

/-! ## §4. The conservation law. -/

structure PreInv (s : Pre) : Prop where
  sbuf : (sbufSystem SBUFSIZE).Reachable s.sb
  taken : s.sb.inserted.length < 2 ^ 31 - 1 → Taken s.sb
  roles : Roles s
  order : s.conns.map Conn.fd = s.sb.inserted ++ (s.main.hand ++ waiting s.sb.threads)
  returned : (s.sb.returned.map Prod.snd).Perm
    (s.conns.filterMap Conn.closedFd ++ s.workers.filterMap WorkerPc.hand)
  table : ∀ fd c, s.table fd = some c ↔
    ∃ conn, s.conns[c]? = some conn ∧ conn.fd = fd ∧ conn.closed = false

theorem PreInv.start : PreInv Pre.start := by
  refine ⟨System.Reachable.of_init ⟨_, fun pc hpc => List.eq_of_mem_replicate hpc, rfl⟩,
    fun _ => .nil, ⟨rfl, ?_, ?_, rfl⟩, rfl, .nil, ?_⟩
  · intro w x hx
    have hw : w < NTHREADS := (List.getElem?_eq_some_iff.mp hx).1
    rw [List.eq_of_mem_replicate (List.mem_of_getElem? hx)]
    show (List.replicate (NTHREADS + 1) Pc.idle)[w + 1]?.map Pc.kind = some .outside
    rw [List.getElem?_replicate_of_lt (by omega)]
    rfl
  · intro i _ w x _ hx
    exact List.eq_of_mem_replicate (List.mem_of_getElem? hx)
  · intro fd c
    simp [Pre.start]

/-- A step of the buffer, by the rule for `Taken`. -/
theorem PreInv.buffer (h : PreInv s) {sb' : Sbuf} (hstep : SbufStep s.sb sb') :
    (sbufSystem SBUFSIZE).Reachable sb' ∧ (sb'.inserted.length < 2 ^ 31 - 1 → Taken sb') := by
  refine ⟨h.sbuf.tail hstep, ?_⟩
  intro hfew
  have hinv := sbuf_invariant (by decide) h.sbuf
  exact (h.taken (Nat.lt_of_le_of_lt hstep.inserted_length hfew)).step hinv hstep hfew

/-- The steps of a worker in its session that leave the connections alone. -/
theorem hands_set {ws : List WorkerPc} {w : ℕ} {σ : Session} (hw : ws[w]? = some (.serving σ))
    (σ' : Session) (hfd : σ'.fd = σ.fd) :
    (ws.set w (.serving σ')).filterMap WorkerPc.hand = ws.filterMap WorkerPc.hand :=
  filterMap_set_eq hw (congrArg some hfd)

/-- The data of a connection change, but not what it is. -/
theorem PreInv.set_conn (h : PreInv s) {c : ℕ} {conn : Conn} (hconn : s.conns[c]? = some conn)
    (conn' : Conn) (hfd : conn'.fd = conn.fd) (hclosed : conn'.closed = conn.closed) :
    (s.conns.set c conn').map Conn.fd = s.conns.map Conn.fd ∧
      (s.conns.set c conn').filterMap Conn.closedFd = s.conns.filterMap Conn.closedFd ∧
      ∀ fd k, s.table fd = some k ↔
        ∃ z, (s.conns.set c conn')[k]? = some z ∧ z.fd = fd ∧ z.closed = false := by
  refine ⟨map_set_eq hconn hfd, filterMap_set_eq hconn ?_, ?_⟩
  · unfold Conn.closedFd
    rw [hfd, hclosed]
  · intro fd k
    rw [h.table fd k]
    by_cases hkc : k = c
    · subst hkc
      rw [List.getElem?_set_self (List.getElem?_eq_some_iff.mp hconn).1, hconn]
      constructor
      · rintro ⟨z, hz, hzfd, hzopen⟩
        cases hz
        exact ⟨conn', rfl, hfd.trans hzfd, hclosed.trans hzopen⟩
      · rintro ⟨z, hz, hzfd, hzopen⟩
        cases hz
        exact ⟨conn, rfl, hfd.symm.trans hzfd, hclosed.symm.trans hzopen⟩
    · rw [List.getElem?_set_ne (Ne.symm hkc)]

/-- A step that changes the data of one connection, and no hands. -/
theorem PreInv.data (h : PreInv s) (hroles : Roles s') {c : ℕ} {conn conn' : Conn}
    (hconn : s.conns[c]? = some conn) (hconns : s'.conns = s.conns.set c conn')
    (hfd : conn'.fd = conn.fd) (hclosed : conn'.closed = conn.closed) (hsb : s'.sb = s.sb)
    (hmain : s'.main = s.main) (htable : s'.table = s.table)
    (hhands : s'.workers.filterMap WorkerPc.hand = s.workers.filterMap WorkerPc.hand) :
    PreInv s' := by
  obtain ⟨hmap, hclosedFds, hlook⟩ := h.set_conn hconn conn' hfd hclosed
  refine ⟨?_, ?_, hroles, ?_, ?_, ?_⟩
  · rw [hsb]
    exact h.sbuf
  · rw [hsb]
    exact h.taken
  · rw [hsb, hmain, hconns]
    exact hmap.trans h.order
  · rw [hsb, hhands, hconns, hclosedFds]
    exact h.returned
  · rw [htable, hconns]
    exact hlook

/-- The kernel gives the new connection a number that is not in use. -/
theorem PreInv.table_accept (h : PreInv s) {connfd : ℤ} (hfree : s.table connfd = none)
    {new : Conn} (hnew : new.fd = connfd) (hnewOpen : new.closed = false) (fd : ℤ) (c : ℕ) :
    Function.update s.table connfd (some s.conns.length) fd = some c ↔
      ∃ conn, (s.conns ++ [new])[c]? = some conn ∧ conn.fd = fd ∧ conn.closed = false := by
  rw [Function.update_apply]
  split
  · next heq =>
      subst heq
      constructor
      · intro hc
        cases hc
        exact ⟨_, List.getElem?_concat_length, hnew, hnewOpen⟩
      · rintro ⟨conn, hconn, hfd, hopen⟩
        rcases getElem?_concat_cases hconn with hold | ⟨rfl, -⟩
        · rw [(h.table fd c).mpr ⟨conn, hold, hfd, hopen⟩] at hfree
          cases hfree
        · rfl
  · next hne =>
      rw [h.table fd c]
      constructor
      · rintro ⟨conn, hconn, hfd, hopen⟩
        have hlt := (List.getElem?_eq_some_iff.mp hconn).1
        exact ⟨conn, by rw [List.getElem?_append_left hlt]; exact hconn, hfd, hopen⟩
      · rintro ⟨conn, hconn, hfd, hopen⟩
        rcases getElem?_concat_cases hconn with hold | ⟨-, rfl⟩
        · exact ⟨conn, hold, hfd, hopen⟩
        · exact absurd (hfd.symm.trans hnew) hne

theorem PreInv.table_close (h : PreInv s) {connfd : ℤ} {c : ℕ} {conn : Conn}
    (hopen : s.table connfd = some c) (fd : ℤ) (k : ℕ) :
    Function.update s.table connfd none fd = some k ↔
      ∃ z, (s.conns.set c { conn with closed := true })[k]? = some z ∧ z.fd = fd ∧
        z.closed = false := by
  rw [Function.update_apply]
  split
  · next heq =>
      subst heq
      constructor
      · intro hk
        cases hk
      · rintro ⟨z, hz, hzfd, hzopen⟩
        rcases getElem?_set_cases hz with ⟨-, rfl⟩ | ⟨hne, hz⟩
        · cases hzopen
        · have hk := (h.table fd k).mpr ⟨z, hz, hzfd, hzopen⟩
          rw [hopen] at hk
          cases hk
          exact absurd rfl hne
  · next hne =>
      rw [h.table fd k]
      constructor
      · rintro ⟨z, hz, hzfd, hzopen⟩
        refine ⟨z, ?_, hzfd, hzopen⟩
        rw [List.getElem?_set_ne]
        · exact hz
        · rintro rfl
          obtain ⟨z', hz', hfd', -⟩ := (h.table connfd c).mp hopen
          rw [hz] at hz'
          cases hz'
          exact hne (hzfd.symm.trans hfd')
      · rintro ⟨z, hz, hzfd, hzopen⟩
        rcases getElem?_set_cases hz with ⟨-, rfl⟩ | ⟨-, hz⟩
        · cases hzopen
        · exact ⟨z, hz, hzfd, hzopen⟩

/-- **One step of the server** keeps the conservation law. -/
theorem PreInv.step (h : PreInv s) (hstep : PreStep s s') : PreInv s' := by
  have hroles := h.roles.step hstep
  cases hstep with
  | create i hmain hi =>
      refine ⟨h.sbuf, h.taken, hroles, ?_, ?_, h.table⟩
      · have ho := h.order
        rw [hmain] at ho
        exact ho
      · rcases h.roles.created hmain with hsame | hz
        · simpa only [hsame] using h.returned
        · simpa only [filterMap_set_eq (f := WorkerPc.hand) (y := .remove) hz rfl] using h.returned
  | createEnd i hmain hi =>
      refine ⟨h.sbuf, h.taken, hroles, ?_, h.returned, h.table⟩
      have ho := h.order
      rw [hmain] at ho
      exact ho
  | accept connfd sent ended hmain hfree =>
      refine ⟨h.sbuf, h.taken, hroles, ?_, ?_, ?_⟩
      · have ho := h.order
        have hwait : waiting s.sb.threads = [] := h.roles.waiting_eq_nil (by rw [hmain]; rfl)
        rw [hmain, hwait] at ho
        show (s.conns ++ [_]).map Conn.fd = _ ++ ([connfd] ++ waiting s.sb.threads)
        rw [List.map_append, ho, hwait]
        simp [ServerPc.hand]
      · show (s.sb.returned.map Prod.snd).Perm ((s.conns ++ [_]).filterMap Conn.closedFd ++ _)
        rw [List.filterMap_append]
        simpa [Conn.closedFd] using h.returned
      · exact h.table_accept hfree rfl rfl
  | insertCall connfd hmain =>
      have hidle := h.roles.idle (by rw [hmain]; rfl)
      obtain ⟨hsbuf, htaken⟩ := h.buffer (SbufStep.callInsert 0 connfd hidle)
      refine ⟨hsbuf, htaken, hroles, ?_, h.returned, h.table⟩
      have ho := h.order
      rw [hmain, h.roles.waiting_eq_nil (by rw [hmain]; rfl)] at ho
      show _ = s.sb.inserted ++ ([] ++ waiting (s.sb.threads.set 0 (.insSlots connfd)))
      rw [waiting_set_zero (List.getElem?_eq_some_iff.mp hidle).1]
      exact ho
  | inside sb' hs hin =>
      obtain ⟨hsbuf, htaken⟩ := h.buffer hs
      obtain ⟨hret, i, x, y, hx, hthreads, hkind, hins⟩ := inside_cases hs hin
      refine ⟨hsbuf, htaken, hroles, ?_, ?_, h.table⟩
      · show s.conns.map Conn.fd = sb'.inserted ++ (s.main.hand ++ waiting sb'.threads)
        rw [h.order, hthreads]
        cases i with
        | zero =>
            have hlt := (List.getElem?_eq_some_iff.mp hx).1
            have hold : waiting s.sb.threads = x.waiting.toList := by
              rw [waiting, hx, Option.bind_some]
            rw [hold, waiting_set_zero hlt]
            rcases hins with ⟨hsame, hwait⟩ | ⟨v, rfl, rfl, hmore⟩
            · rw [hsame, hwait]
            · -- the descriptor of the main thread enters the history
              rw [hmore, h.roles.hand_eq_nil hx rfl]
              simp [Pc.waiting]
        | succ w =>
            rw [waiting_set_succ]
            rcases hins with ⟨hsame, -⟩ | ⟨v, rfl, -, -⟩
            · rw [hsame]
            · -- a worker does not insert
              exact absurd hx (h.roles.not_insert w _ rfl)
      · show (sb'.returned.map Prod.snd).Perm _
        rw [hret]
        exact h.returned
  | insertReturn hi =>
      obtain ⟨hsbuf, htaken⟩ := h.buffer (SbufStep.vItems 0 hi)
      refine ⟨hsbuf, htaken, hroles, ?_, h.returned, h.table⟩
      have ho := h.order
      rw [h.roles.hand_eq_nil hi rfl, waiting, hi] at ho
      show _ = s.sb.inserted ++ ([] ++ waiting (s.sb.threads.set 0 .idle))
      rw [waiting_set_zero (List.getElem?_eq_some_iff.mp hi).1]
      exact ho
  | removeCall w hw =>
      obtain ⟨hsbuf, htaken⟩ := h.buffer (SbufStep.callRemove (w + 1) (h.roles.worker_idle hw rfl))
      refine ⟨hsbuf, htaken, hroles, ?_, ?_, h.table⟩
      · show _ = _ ++ (_ ++ waiting (s.sb.threads.set (w + 1) .remItems))
        rw [waiting_set_succ]
        exact h.order
      · simpa only [filterMap_set_eq (f := WorkerPc.hand) (y := .removing) hw rfl] using h.returned
  | removeReturn w k connfd hw =>
      obtain ⟨hsbuf, htaken⟩ := h.buffer (SbufStep.vSlots (w + 1) k connfd hw)
      refine ⟨hsbuf, htaken, hroles, ?_, ?_, h.table⟩
      · show _ = _ ++ (_ ++ waiting (s.sb.threads.set (w + 1) .idle))
        rw [waiting_set_succ]
        exact h.order
      · have hmore := filterMap_set_perm (f := WorkerPc.hand)
          (y := .serving ⟨connfd, [], [], .once⟩) (h.roles.removing hw rfl) rfl rfl
        show ((s.sb.returned ++ [(k, connfd)]).map Prod.snd).Perm _
        rw [List.map_append]
        refine (List.perm_append_comm.trans (h.returned.cons connfd)).trans ?_
        exact List.perm_middle.symm.trans (hmore.append_left _).symm
  | count w σ cnt' pc' hw hs =>
      refine ⟨h.sbuf, h.taken, hroles, h.order, ?_, h.table⟩
      simpa only [hands_set hw { σ with pc := pc' } rfl] using h.returned
  | clientSend c conn more hconn hend =>
      exact h.data hroles hconn rfl rfl rfl rfl rfl rfl rfl
  | clientEnd c conn hconn => exact h.data hroles hconn rfl rfl rfl rfl rfl rfl rfl
  | fill w c k connfd line conn hw hopen hconn hk hsize hlen =>
      exact h.data hroles hconn rfl rfl rfl rfl rfl rfl (hands_set hw _ rfl)
  | readByte w c connfd line rio b conn hw hopen hconn =>
      exact h.data hroles hconn rfl rfl rfl rfl rfl rfl (hands_set hw _ rfl)
  | readEof w c connfd line conn hw hopen hconn hend hnil =>
      refine ⟨h.sbuf, h.taken, hroles, h.order, ?_, h.table⟩
      simpa only [hands_set hw ⟨connfd, line, [], if line = [] then .close else .lock⟩ rfl]
        using h.returned
  | write w c k connfd line rio conn hw hopen hconn hk hlen =>
      exact h.data hroles hconn rfl rfl rfl rfl rfl rfl (hands_set hw _ rfl)
  | written w connfd rio hw =>
      refine ⟨h.sbuf, h.taken, hroles, h.order, ?_, h.table⟩
      simpa only [hands_set hw ⟨connfd, [], rio, .read⟩ rfl] using h.returned
  | close w c σ conn hw hpc hopen hconn =>
      obtain ⟨conn', hconn', hfd, hclosed⟩ := (h.table σ.fd c).mp hopen
      rw [hconn] at hconn'
      cases hconn'
      refine ⟨h.sbuf, h.taken, hroles, ?_, ?_, ?_⟩
      · have hmap := map_set_eq (f := Conn.fd) (y := { conn with closed := true }) hconn rfl
        exact hmap.trans h.order
      · have hless := filterMap_set_perm_of_none (f := WorkerPc.hand) (y := .remove) hw rfl rfl
        have hmore := filterMap_set_perm (f := Conn.closedFd) (y := { conn with closed := true })
          (b := σ.fd) hconn (by rw [Conn.closedFd, hclosed]; rfl) (by rw [← hfd]; rfl)
        refine h.returned.trans ((hless.append_left _).trans ?_)
        exact List.perm_middle.trans (hmore.append_right _).symm
      · exact h.table_close hopen

theorem PreInv.reachable (h : prethreaded.Reachable s) : PreInv s := by
  refine h.invariant ?_ (fun _ _ _ hinv hstep => hinv.step hstep)
  rintro s rfl
  exact PreInv.start

theorem conns_perm (conns : List Conn) :
    (conns.map Conn.fd).Perm (conns.filterMap Conn.closedFd ++ conns.filterMap Conn.openFd) := by
  induction conns with
  | nil => exact .nil
  | cons c conns ih =>
      cases hc : c.closed with
      | true =>
          rw [List.filterMap_cons_some (b := c.fd) (by rw [Conn.closedFd, hc]; rfl),
            List.filterMap_cons_none (by rw [Conn.openFd, hc]; rfl)]
          exact ih.cons c.fd
      | false =>
          rw [List.filterMap_cons_none (by rw [Conn.closedFd, hc]; rfl),
            List.filterMap_cons_some (b := c.fd) (by rw [Conn.openFd, hc]; rfl)]
          exact (ih.cons c.fd).trans List.perm_middle.symm

/-- What is in the buffer. -/
def Sbuf.buffered (s : Sbuf) : List ℤ := s.inserted.drop s.sp.front.toNat

/-- **The conservation law.** -/
theorem PreInv.owned (h : PreInv s) (hfew : s.sb.inserted.length < 2 ^ 31 - 1) :
    (s.conns.filterMap Conn.openFd).Perm (s.workers.filterMap WorkerPc.hand ++
      (s.sb.threads.filterMap Pc.got ++ (s.sb.buffered ++
        (s.main.hand ++ waiting s.sb.threads)))) := by
  have hall := h.order
  rw [← List.take_append_drop s.sb.sp.front.toNat s.sb.inserted, List.append_assoc] at hall
  have hserved := (h.taken hfew).symm.trans (h.returned.append_right _)
  -- both sides with the closed connections
  refine (List.perm_append_left_iff (s.conns.filterMap Conn.closedFd)).mp ?_
  refine (conns_perm s.conns).symm.trans ?_
  rw [hall]
  refine (hserved.append_right _).trans ?_
  rw [List.append_assoc, List.append_assoc]
  exact .refl _

/-- Open connections have different descriptors. -/
theorem PreInv.open_nodup (h : PreInv s) : (s.conns.filterMap Conn.openFd).Nodup := by
  rw [nodup_filterMap_iff]
  have hopen : ∀ (i : ℕ) conn fd, s.conns[i]? = some conn → conn.openFd = some fd →
      s.table fd = some i := by
    intro i conn fd hi hfd
    unfold Conn.openFd at hfd
    split at hfd
    · cases hfd
    · next hclosed =>
        cases hfd
        exact (h.table _ i).mpr ⟨conn, hi, rfl, by simpa using hclosed⟩
  intro i j x y fd hi hj hx hy
  have hij := (hopen i x fd hi hx).symm.trans (hopen j y fd hj hy)
  exact Option.some.inj hij

/-- The descriptors are in different hands. -/
theorem PreInv.owned_nodup (h : PreInv s) (hfew : s.sb.inserted.length < 2 ^ 31 - 1) :
    (s.workers.filterMap WorkerPc.hand ++ (s.sb.threads.filterMap Pc.got ++ (s.sb.buffered ++
      (s.main.hand ++ waiting s.sb.threads)))).Nodup :=
  (h.owned hfew).nodup_iff.mp h.open_nodup

/-- A descriptor in somebody's hand is open. -/
theorem PreInv.open_of_owned (h : PreInv s) (hfew : s.sb.inserted.length < 2 ^ 31 - 1) {fd : ℤ}
    (hfd : fd ∈ s.workers.filterMap WorkerPc.hand ++ (s.sb.threads.filterMap Pc.got ++
      (s.sb.buffered ++ (s.main.hand ++ waiting s.sb.threads)))) :
    ∃ c conn, s.table fd = some c ∧ s.conns[c]? = some conn ∧ conn.fd = fd ∧
      conn.closed = false := by
  obtain ⟨conn, hmem, hopen⟩ := List.mem_filterMap.mp ((h.owned hfew).mem_iff.mpr hfd)
  obtain ⟨c, hc⟩ := List.getElem?_of_mem hmem
  unfold Conn.openFd at hopen
  split at hopen
  · cases hopen
  · next hclosed =>
      cases hopen
      have hfalse : conn.closed = false := by simpa using hclosed
      exact ⟨c, conn, (h.table _ c).mpr ⟨conn, hc, rfl, hfalse⟩, hc, rfl, hfalse⟩

end ComputerScience.Sync
