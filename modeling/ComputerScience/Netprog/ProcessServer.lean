/-
  ComputerScience.Netprog.ProcessServer
  ─────────────────────────────────────
  **THE ECHO SERVER WITH PROCESSES** (`23-concprog/echoserverp.c`).

  The parent accepts a connection, forks a child that serves it, and closes its own copy of
  the descriptor.  A fork copies the table of descriptors, so for a moment the connection is
  open in two processes, and the kernel ends it when no process has it open any more: "Parent
  closes connected socket (important!)".  A handler reaps the children that have exited.

  A descriptor is a number in the table of one process.  `Accept` returns any number that is
  free in the parent, so that after the first connection it may be the same again and again.
  `echo` is the loop of `echo.c`; a failing system call, which ends its process, is left out.

  Main results:
    • `ForkInv.step`, `ForkInv.reachable` — the tables of all processes,
    • `processServer_serves` — what follows for descriptors, connections and zombies.
-/
import ComputerScience.Lib.Pool
import ComputerScience.Lib.TransitionSystem
import Mathlib.Data.List.Basic
import Mathlib.Logic.Function.Basic

namespace ComputerScience.Netprog

open ComputerScience.Lib

/-! ## §1. Processes and their descriptors. -/

/-- What a descriptor stands for. -/
inductive File where
  | listening
  /-- the connection accepted as number `c` -/
  | conn (c : ℕ)
  deriving DecidableEq, Repr

/-- The table of a process. -/
abbrev Files := ℕ → Option File

inductive ParentPc where
  | accept
  /-- before `Fork()` -/
  | fork (connfd : ℕ)
  /-- before `Close(connfd)` -/
  | close (connfd : ℕ)
  deriving DecidableEq, Repr

inductive ChildPc where
  /-- before `Close(listenfd)` -/
  | closeListen
  /-- in `echo`, before `Rio_readlineb` -/
  | read
  /-- before `Rio_writen` -/
  | write (line : List UInt8)
  /-- before `Close(connfd)` -/
  | closeConn
  /-- before `exit(0)` -/
  | exit
  | zombie
  | reaped
  deriving DecidableEq, Repr

structure Child where
  pc : ChildPc
  connfd : ℕ
  files : Files

/-- What was read from a connection and written to it. -/
structure Traffic where
  received : List UInt8
  echoed : List UInt8

structure ForkServer where
  main : ParentPc
  files : Files
  /-- The children in the order of their forks. -/
  children : List Child
  /-- The connections in the order they were accepted. -/
  conns : List Traffic
  /-- `SIGCHLD` is pending. -/
  pending : Bool
  /-- `sigchld_handler` runs. -/
  handler : Bool

/-- One step of a process or of the kernel. -/
inductive ForkServerStep (listenfd : ℕ) (s : ForkServer) : ForkServer → Prop where
  | accept (connfd : ℕ) (hh : s.handler = false) (h : s.main = .accept)
      (hfree : s.files connfd = none) :
      ForkServerStep listenfd s { s with
        main := .fork connfd
        files := Function.update s.files connfd (some (.conn s.conns.length))
        conns := s.conns ++ [⟨[], []⟩] }
  | fork (connfd : ℕ) (hh : s.handler = false) (h : s.main = .fork connfd) :
      ForkServerStep listenfd s { s with
        main := .close connfd, children := s.children ++ [⟨.closeListen, connfd, s.files⟩] }
  | close (connfd : ℕ) (f : File) (hh : s.handler = false) (h : s.main = .close connfd)
      (hopen : s.files connfd = some f) :
      ForkServerStep listenfd s { s with
        main := .accept, files := Function.update s.files connfd none }
  -- a child
  | closeListen (k : ℕ) (child : Child) (f : File) (hk : s.children[k]? = some child)
      (h : child.pc = .closeListen) (hopen : child.files listenfd = some f) :
      ForkServerStep listenfd s { s with
        children := s.children.set k { child with
          pc := .read, files := Function.update child.files listenfd none } }
  | readLine (k c : ℕ) (child : Child) (t : Traffic) (line : List UInt8)
      (hk : s.children[k]? = some child) (h : child.pc = .read)
      (hopen : child.files child.connfd = some (.conn c)) (hc : s.conns[c]? = some t)
      (hline : line ≠ []) :
      ForkServerStep listenfd s { s with
        children := s.children.set k { child with pc := .write line }
        conns := s.conns.set c { t with received := t.received ++ line } }
  | readEof (k c : ℕ) (child : Child) (hk : s.children[k]? = some child) (h : child.pc = .read)
      (hopen : child.files child.connfd = some (.conn c)) :
      ForkServerStep listenfd s { s with
        children := s.children.set k { child with pc := .closeConn } }
  | write (k c : ℕ) (child : Child) (t : Traffic) (line : List UInt8)
      (hk : s.children[k]? = some child) (h : child.pc = .write line)
      (hopen : child.files child.connfd = some (.conn c)) (hc : s.conns[c]? = some t) :
      ForkServerStep listenfd s { s with
        children := s.children.set k { child with pc := .read }
        conns := s.conns.set c { t with echoed := t.echoed ++ line } }
  | closeConn (k : ℕ) (child : Child) (f : File) (hk : s.children[k]? = some child)
      (h : child.pc = .closeConn) (hopen : child.files child.connfd = some f) :
      ForkServerStep listenfd s { s with
        children := s.children.set k { child with
          pc := .exit, files := Function.update child.files child.connfd none } }
  /-- The kernel closes what is still open, and raises `SIGCHLD`. -/
  | exit (k : ℕ) (child : Child) (hk : s.children[k]? = some child) (h : child.pc = .exit) :
      ForkServerStep listenfd s { s with
        children := s.children.set k { child with pc := .zombie, files := fun _ => none }
        pending := true }
  -- the handler
  | deliver (hh : s.handler = false) (hp : s.pending = true) :
      ForkServerStep listenfd s { s with pending := false, handler := true }
  | reap (k : ℕ) (child : Child) (hh : s.handler = true) (hk : s.children[k]? = some child)
      (h : child.pc = .zombie) :
      ForkServerStep listenfd s { s with
        children := s.children.set k { child with pc := .reaped } }
  /-- `waitpid(-1, 0, WNOHANG)` finds no zombie. -/
  | handlerEnd (hh : s.handler = true) (hnone : ∀ child ∈ s.children, child.pc ≠ .zombie) :
      ForkServerStep listenfd s { s with handler := false }

/-- The table of the parent behind `Open_listenfd`. -/
def listenOnly (listenfd : ℕ) : Files := fun fd => if fd = listenfd then some .listening else none

/-- The server behind `Open_listenfd`. -/
def processServer (listenfd : ℕ) : System ForkServer where
  init s := s = ⟨.accept, listenOnly listenfd, [], [], false, false⟩
  step := ForkServerStep listenfd

/-! ## §2. The tables. -/

variable {listenfd connfd : ℕ}

/-- The table with one connection. -/
def withConn (files : Files) (connfd c : ℕ) : Files :=
  Function.update files connfd (some (.conn c))

theorem listenOnly_close (hne : connfd ≠ listenfd) (c : ℕ) :
    Function.update (withConn (listenOnly listenfd) connfd c) connfd none = listenOnly listenfd := by
  rw [withConn, Function.update_idem]
  exact Function.update_eq_self_iff.mpr (if_neg hne).symm

theorem withConn_closeListen (hne : connfd ≠ listenfd) (c : ℕ) :
    Function.update (withConn (listenOnly listenfd) connfd c) listenfd none =
      withConn (fun _ => none) connfd c := by
  funext fd
  by_cases h₁ : fd = listenfd
  · subst h₁
    rw [Function.update_self, withConn, Function.update_of_ne (Ne.symm hne)]
  · rw [Function.update_of_ne h₁]
    by_cases h₂ : fd = connfd
    · subst h₂
      rw [withConn, withConn, Function.update_self, Function.update_self]
    · rw [withConn, withConn, Function.update_of_ne h₂, Function.update_of_ne h₂]
      exact if_neg h₁

theorem withConn_close (c : ℕ) :
    Function.update (withConn (fun _ => none) connfd c) connfd none = fun _ => none := by
  rw [withConn, Function.update_idem]
  exact Function.update_eq_self_iff.mpr rfl

/-- The table of child `k`. -/
def ChildPc.table (listenfd connfd k : ℕ) : ChildPc → Files
  | .closeListen => withConn (listenOnly listenfd) connfd k
  | .read | .write _ | .closeConn => withConn (fun _ => none) connfd k
  | .exit | .zombie | .reaped => fun _ => none

/-- The line a child has read and not written back. -/
def ChildPc.line : ChildPc → List UInt8
  | .write line => line
  | _ => []

/-- The table of the parent, and how many children it has forked. -/
def ForkServer.Parent (listenfd : ℕ) (s : ForkServer) : Prop :=
  match s.main with
  | .accept => s.files = listenOnly listenfd ∧ s.conns.length = s.children.length
  | .fork connfd => connfd ≠ listenfd ∧ s.conns.length = s.children.length + 1 ∧
      s.files = withConn (listenOnly listenfd) connfd s.children.length
  | .close connfd => connfd ≠ listenfd ∧ s.conns.length = s.children.length ∧
      0 < s.children.length ∧
      s.files = withConn (listenOnly listenfd) connfd (s.children.length - 1)

/-- Child `k` serves connection `k`. -/
structure Child.Ok (listenfd k : ℕ) (conns : List Traffic) (child : Child) : Prop where
  connfd : child.connfd ≠ listenfd
  files : child.files = child.pc.table listenfd child.connfd k
  traffic : ∃ t, conns[k]? = some t ∧ t.received = t.echoed ++ child.pc.line

structure ForkInv (listenfd : ℕ) (s : ForkServer) : Prop where
  parent : s.Parent listenfd
  each : ∀ (k : ℕ) child, s.children[k]? = some child → child.Ok listenfd k s.conns
  fresh : ∀ (c : ℕ) t, s.conns[c]? = some t → s.children.length ≤ c → t = ⟨[], []⟩
  zombies : (∃ child ∈ s.children, child.pc = .zombie) → s.pending = true ∨ s.handler = true

/-! ## §3. One step. -/

section Steps

variable {s s' : ForkServer}

theorem Child.Ok.of_conns {k : ℕ} {conns conns' : List Traffic} {child : Child}
    (h : child.Ok listenfd k conns) (he : conns'[k]? = conns[k]?) : child.Ok listenfd k conns' :=
  ⟨h.connfd, h.files, by rw [he]; exact h.traffic⟩

/-- **One child moves**, and with it at most its own connection. -/
theorem ForkInv.child (hs : ForkInv listenfd s) {k : ℕ} {child child' : Child}
    {conns' : List Traffic} {pending' : Bool} (hk : s.children[k]? = some child)
    (hok : child'.Ok listenfd k conns') (hlen : conns'.length = s.conns.length)
    (hframe : ∀ c : ℕ, c ≠ k → conns'[c]? = s.conns[c]?)
    (hp : s.pending = true → pending' = true)
    (hz : child'.pc = .zombie → pending' = true ∨ s.handler = true) :
    ForkInv listenfd { s with
      children := s.children.set k child', conns := conns', pending := pending' } where
  parent := by
    have h := hs.parent
    simp only [ForkServer.Parent, List.length_set, hlen] at h ⊢
    exact h
  each := by
    intro j x hx
    rcases getElem?_set_cases hx with ⟨rfl, rfl⟩ | ⟨hne, hj⟩
    · exact hok
    · exact (hs.each j x hj).of_conns (hframe j hne)
  fresh := by
    intro c t ht hc
    have hlt := (List.getElem?_eq_some_iff.mp hk).1
    simp only [List.length_set] at hc
    rw [hframe c (by omega)] at ht
    exact hs.fresh c t ht hc
  zombies := by
    rintro ⟨x, hx, hxz⟩
    obtain ⟨j, hj⟩ := List.getElem?_of_mem hx
    rcases getElem?_set_cases hj with ⟨rfl, rfl⟩ | ⟨-, hj⟩
    · exact hz hxz
    · exact (hs.zombies ⟨x, List.mem_of_getElem? hj, hxz⟩).imp_left hp

/-- A child that moves without its connection. -/
theorem ForkInv.child_pc (hs : ForkInv listenfd s) {k : ℕ} {child child' : Child}
    {pending' : Bool} (hk : s.children[k]? = some child) (hfd : child'.connfd = child.connfd)
    (hfiles : child'.files = child'.pc.table listenfd child.connfd k)
    (hline : child'.pc.line = child.pc.line) (hp : s.pending = true → pending' = true)
    (hz : child'.pc = .zombie → pending' = true ∨ s.handler = true) :
    ForkInv listenfd { s with children := s.children.set k child', pending := pending' } := by
  have hok := hs.each k child hk
  refine hs.child hk ⟨by rw [hfd]; exact hok.connfd, by rw [hfd]; exact hfiles, ?_⟩ rfl
    (fun _ _ => rfl) hp hz
  rw [hline]
  exact hok.traffic

/-- What a child finds behind its descriptor is its own connection. -/
theorem Child.Ok.conn_eq {k c : ℕ} {conns : List Traffic} {child : Child}
    (h : child.Ok listenfd k conns)
    (htable : child.pc.table listenfd child.connfd k = withConn (fun _ => none) child.connfd k)
    (hopen : child.files child.connfd = some (.conn c)) : c = k := by
  rw [h.files, htable, withConn, Function.update_self, Option.some.injEq, File.conn.injEq] at hopen
  exact hopen.symm

/-- **A child reads or writes** on its connection. -/
theorem ForkInv.child_conn (hs : ForkInv listenfd s) {k : ℕ} {child : Child} {pc : ChildPc}
    {t t' : Traffic} (hk : s.children[k]? = some child) (hc : s.conns[k]? = some t)
    (htable : pc.table listenfd child.connfd k = child.pc.table listenfd child.connfd k)
    (hline : t'.received = t'.echoed ++ pc.line) (hz : pc ≠ .zombie) :
    ForkInv listenfd { s with
      children := s.children.set k { child with pc := pc }, conns := s.conns.set k t' } := by
  have hok := hs.each k child hk
  have hlt := (List.getElem?_eq_some_iff.mp hc).1
  refine hs.child hk ⟨hok.connfd, hok.files.trans htable.symm, t', ?_, hline⟩ List.length_set
    (fun c hne => List.getElem?_set_ne (Ne.symm hne)) id (fun h => absurd h hz)
  exact List.getElem?_set_self hlt

theorem ForkInv.accept (hs : ForkInv listenfd s) (h : s.main = .accept)
    (hfree : s.files connfd = none) :
    ForkInv listenfd { s with
      main := .fork connfd
      files := Function.update s.files connfd (some (.conn s.conns.length))
      conns := s.conns ++ [⟨[], []⟩] } := by
  have hp := hs.parent
  simp only [ForkServer.Parent, h] at hp
  obtain ⟨hfiles, hlen⟩ := hp
  constructor
  · refine ⟨?_, ?_, ?_⟩
    · rintro rfl
      rw [hfiles, listenOnly, if_pos rfl] at hfree
      exact Option.some_ne_none _ hfree
    · simp only [List.length_append, List.length_singleton, hlen]
    · simp only [withConn, hfiles, hlen]
  · intro k child hk
    have hlt : k < s.children.length := (List.getElem?_eq_some_iff.mp hk).1
    exact (hs.each k child hk).of_conns (List.getElem?_append_left (by omega))
  · intro c t ht hc
    rcases getElem?_concat_cases ht with ht | ⟨-, rfl⟩
    · exact hs.fresh c t ht hc
    · rfl
  · exact hs.zombies

theorem ForkInv.fork (hs : ForkInv listenfd s) (h : s.main = .fork connfd) :
    ForkInv listenfd { s with
      main := .close connfd, children := s.children ++ [⟨.closeListen, connfd, s.files⟩] } := by
  have hp := hs.parent
  simp only [ForkServer.Parent, h] at hp
  obtain ⟨hne, hlen, hfiles⟩ := hp
  constructor
  · refine ⟨hne, ?_, ?_, ?_⟩
    · simp only [List.length_append, List.length_singleton, hlen]
    · simp only [List.length_append, List.length_singleton, Nat.succ_pos]
    · simp only [List.length_append, List.length_singleton, Nat.add_sub_cancel, hfiles]
  · intro k child hk
    rcases getElem?_concat_cases hk with hk | ⟨rfl, rfl⟩
    · exact hs.each k child hk
    · -- the new child serves the connection that no child has served yet
      have hlt : s.children.length < s.conns.length := by omega
      obtain ⟨t, ht⟩ : ∃ t, s.conns[s.children.length]? = some t :=
        ⟨_, List.getElem?_eq_getElem hlt⟩
      refine ⟨hne, hfiles, t, ht, ?_⟩
      rw [hs.fresh _ t ht le_rfl]
      rfl
  · intro c t ht hc
    rw [List.length_append] at hc
    exact hs.fresh c t ht (Nat.le_of_add_right_le hc)
  · rintro ⟨child, hchild, hz⟩
    rcases List.mem_append.mp hchild with hchild | hchild
    · exact hs.zombies ⟨child, hchild, hz⟩
    · rw [List.mem_singleton.mp hchild] at hz
      exact nomatch hz

theorem ForkInv.close (hs : ForkInv listenfd s) (h : s.main = .close connfd) :
    ForkInv listenfd { s with
      main := .accept, files := Function.update s.files connfd none } := by
  have hp := hs.parent
  simp only [ForkServer.Parent, h] at hp
  obtain ⟨hne, hlen, -, hfiles⟩ := hp
  refine ⟨⟨?_, hlen⟩, hs.each, hs.fresh, hs.zombies⟩
  simp only [hfiles]
  exact listenOnly_close hne _

/-- **One step** keeps the tables of all processes. -/
theorem ForkInv.step (hs : ForkInv listenfd s) (h : ForkServerStep listenfd s s') :
    ForkInv listenfd s' := by
  cases h with
  | accept connfd hh h hfree => exact hs.accept h hfree
  | fork connfd hh h => exact hs.fork h
  | close connfd f hh h hopen => exact hs.close h
  | closeListen k child f hk h hopen =>
      have hok := hs.each k child hk
      refine hs.child_pc hk rfl ?_ (by rw [h]; rfl) id (fun hz => nomatch hz)
      simp only [hok.files, h]
      exact withConn_closeListen hok.connfd k
  | readLine k c child t line hk h hopen hc hline =>
      have hok := hs.each k child hk
      obtain rfl := hok.conn_eq (by rw [h]; rfl) hopen
      obtain ⟨t₁, ht₁, heq⟩ := hok.traffic
      obtain rfl : t₁ = t := Option.some.inj (ht₁.symm.trans hc)
      refine hs.child_conn hk hc (by rw [h]; rfl) ?_ (fun hz => nomatch hz)
      rw [heq, h]
      exact congrArg (· ++ line) (List.append_nil _)
  | readEof k c child hk h hopen =>
      have hok := hs.each k child hk
      refine hs.child_pc hk rfl ?_ (by rw [h]; rfl) id (fun hz => nomatch hz)
      simp only [hok.files, h]
      rfl
  | write k c child t line hk h hopen hc =>
      have hok := hs.each k child hk
      obtain rfl := hok.conn_eq (by rw [h]; rfl) hopen
      obtain ⟨t₁, ht₁, heq⟩ := hok.traffic
      obtain rfl : t₁ = t := Option.some.inj (ht₁.symm.trans hc)
      refine hs.child_conn hk hc (by rw [h]; rfl) ?_ (fun hz => nomatch hz)
      rw [heq, h]
      exact (List.append_nil _).symm
  | closeConn k child f hk h hopen =>
      have hok := hs.each k child hk
      refine hs.child_pc hk rfl ?_ (by rw [h]; rfl) id (fun hz => nomatch hz)
      simp only [hok.files, h]
      exact withConn_close k
  | exit k child hk h =>
      exact hs.child_pc hk rfl rfl (by rw [h]; rfl) (fun _ => rfl) (fun _ => Or.inl rfl)
  | deliver hh hp => exact ⟨hs.parent, hs.each, hs.fresh, fun _ => Or.inr rfl⟩
  | reap k child hh hk h =>
      have hok := hs.each k child hk
      refine hs.child_pc hk rfl ?_ (by rw [h]; rfl) id (fun hz => nomatch hz)
      simp only [hok.files, h]
      rfl
  | handlerEnd hh hnone =>
      exact ⟨hs.parent, hs.each, hs.fresh, fun ⟨child, hchild, hz⟩ => absurd hz (hnone child hchild)⟩

theorem ForkInv.init :
    ForkInv listenfd ⟨.accept, listenOnly listenfd, [], [], false, false⟩ where
  parent := ⟨rfl, rfl⟩
  each := fun _ _ hk => nomatch hk
  fresh := fun _ _ ht => nomatch ht
  zombies := fun ⟨_, hchild, _⟩ => nomatch hchild

theorem ForkInv.reachable (h : (processServer listenfd).Reachable s) : ForkInv listenfd s := by
  refine h.invariant (fun s hinit => ?_) (fun s s' _ hs hstep => hs.step hstep)
  obtain rfl : s = ⟨.accept, listenOnly listenfd, [], [], false, false⟩ := hinit
  exact ForkInv.init

end Steps

/-! ## §4. What the server does. -/

/-- Some process has connection `c` open. -/
def ForkServer.Open (s : ForkServer) (c : ℕ) : Prop :=
  (∃ fd, s.files fd = some (.conn c)) ∨
    ∃ child ∈ s.children, ∃ fd, child.files fd = some (.conn c)

/-- The child is behind its `Close(connfd)`. -/
def ChildPc.closed : ChildPc → Bool
  | .exit | .zombie | .reaped => true
  | _ => false

section Results

variable {s : ForkServer} {c k fd : ℕ} {f : File} {files : Files} {child : Child}

theorem withConn_eq_some_iff :
    withConn files connfd c fd = some f ↔
      (fd = connfd ∧ f = .conn c) ∨ (fd ≠ connfd ∧ files fd = some f) := by
  by_cases h : fd = connfd
  · subst h
    simp [withConn, eq_comm]
  · simp [withConn, h]

theorem listenOnly_eq_some_iff :
    listenOnly listenfd fd = some f ↔ fd = listenfd ∧ f = .listening := by
  rw [listenOnly]
  split
  · simp [*, eq_comm]
  · simp [*]

/-- The parent has the last connection open until its `Close`. -/
theorem ForkServer.Parent.files_eq_some_iff (h : s.Parent listenfd) :
    s.files fd = some f ↔ (fd = listenfd ∧ f = .listening) ∨
      ((s.main = .fork fd ∨ s.main = .close fd) ∧ ∃ c, c + 1 = s.conns.length ∧ f = .conn c) := by
  rw [ForkServer.Parent] at h
  cases hm : s.main with
  | accept =>
      rw [hm] at h
      rw [h.1, listenOnly_eq_some_iff]
      simp
  | fork connfd =>
      rw [hm] at h
      obtain ⟨hne, hlen, hfiles⟩ := h
      rw [hfiles, withConn_eq_some_iff, listenOnly_eq_some_iff]
      grind
  | close connfd =>
      rw [hm] at h
      obtain ⟨hne, hlen, hpos, hfiles⟩ := h
      rw [hfiles, withConn_eq_some_iff, listenOnly_eq_some_iff]
      grind

/-- A child has its own connection open until its `Close`. -/
theorem Child.Ok.files_eq_some_iff {conns : List Traffic} (h : child.Ok listenfd k conns) :
    child.files fd = some f ↔ (fd = listenfd ∧ f = .listening ∧ child.pc = .closeListen) ∨
      (fd = child.connfd ∧ f = .conn k ∧ child.pc.closed = false) := by
  have hne := h.connfd
  rw [h.files]
  cases child.pc with
  | closeListen =>
      rw [ChildPc.table, withConn_eq_some_iff, listenOnly_eq_some_iff]
      grind [ChildPc.closed]
  | read | write _ | closeConn =>
      rw [ChildPc.table, withConn_eq_some_iff]
      grind [ChildPc.closed]
  | exit | zombie | reaped => simp [ChildPc.table, ChildPc.closed]

/-- **When a connection ends**: its child is behind its `Close`, and so is the parent. -/
theorem ForkInv.open_iff (hs : ForkInv listenfd s) :
    s.Open c ↔ (s.main ≠ .accept ∧ c + 1 = s.conns.length) ∨
      ∃ child, s.children[c]? = some child ∧ child.pc.closed = false := by
  refine or_congr ⟨?_, ?_⟩ ⟨?_, ?_⟩
  · rintro ⟨fd, h⟩
    rcases hs.parent.files_eq_some_iff.mp h with ⟨-, h⟩ | ⟨hm, c', hc', h⟩
    · exact nomatch h
    · obtain rfl := File.conn.inj h
      exact ⟨fun ha => by simp [ha] at hm, hc'⟩
  · rintro ⟨hm, hc⟩
    cases h : s.main with
    | accept => exact absurd h hm
    | fork fd => exact ⟨fd, hs.parent.files_eq_some_iff.mpr (.inr ⟨.inl h, c, hc, rfl⟩)⟩
    | close fd => exact ⟨fd, hs.parent.files_eq_some_iff.mpr (.inr ⟨.inr h, c, hc, rfl⟩)⟩
  · rintro ⟨child, hchild, fd, h⟩
    obtain ⟨k, hk⟩ := List.getElem?_of_mem hchild
    rcases (hs.each k child hk).files_eq_some_iff.mp h with ⟨-, h, -⟩ | ⟨-, h, hclosed⟩
    · exact nomatch h
    · obtain rfl := File.conn.inj h
      exact ⟨child, hk, hclosed⟩
  · rintro ⟨child, hk, hclosed⟩
    exact ⟨child, List.mem_of_getElem? hk, child.connfd,
      (hs.each c child hk).files_eq_some_iff.mpr (.inr ⟨rfl, rfl, hclosed⟩)⟩

/-- What came back on a connection. -/
theorem ForkInv.traffic (hs : ForkInv listenfd s) {t : Traffic} (ht : s.conns[c]? = some t) :
    t.echoed <+: t.received ∧ (¬ s.Open c → t.echoed = t.received) := by
  by_cases hc : c < s.children.length
  · have hk : s.children[c]? = some s.children[c] := List.getElem?_eq_getElem hc
    obtain ⟨t', ht', heq⟩ := (hs.each c _ hk).traffic
    obtain rfl : t' = t := Option.some.inj (ht'.symm.trans ht)
    refine ⟨⟨_, heq.symm⟩, fun hopen => ?_⟩
    have hclosed : s.children[c].pc.closed = true := by
      by_contra h
      exact hopen (hs.open_iff.mpr (.inr ⟨_, hk, Bool.eq_false_of_not_eq_true h⟩))
    -- behind its `Close` a child has no line left to write
    have hline : s.children[c].pc.line = [] := by
      cases hpc : s.children[c].pc with
      | write line => rw [hpc] at hclosed; exact nomatch hclosed
      | closeListen | read | closeConn | exit | zombie | reaped => rfl
    rw [heq, hline, List.append_nil]
  · rw [hs.fresh c t ht (Nat.le_of_not_lt hc)]
    exact ⟨List.prefix_rfl, fun _ => rfl⟩

end Results

/-- **The server with processes.**  The parent has open its listening descriptor and, until its
    own `Close`, the connection it accepted last; child `k` has open its own connection until
    its `Close`, and before its first one the listening descriptor.  So a connection is still
    open in some process exactly until both have closed it, and then every byte received on it
    was echoed.  A child that has exited waits to be reaped only while the signal is pending or
    its handler runs. -/
theorem processServer_serves (listenfd : ℕ) (s : ForkServer)
    (h : (processServer listenfd).Reachable s) :
    (∀ fd f, s.files fd = some f ↔ (fd = listenfd ∧ f = .listening) ∨
      ((s.main = .fork fd ∨ s.main = .close fd) ∧ ∃ c, c + 1 = s.conns.length ∧ f = .conn c)) ∧
    (∀ (k : ℕ) child, s.children[k]? = some child → ∀ fd f, child.files fd = some f ↔
      (fd = listenfd ∧ f = .listening ∧ child.pc = .closeListen) ∨
      (fd = child.connfd ∧ f = .conn k ∧ child.pc.closed = false)) ∧
    (∀ c, s.Open c ↔ (s.main ≠ .accept ∧ c + 1 = s.conns.length) ∨
      ∃ child, s.children[c]? = some child ∧ child.pc.closed = false) ∧
    (∀ (c : ℕ) t, s.conns[c]? = some t →
      t.echoed <+: t.received ∧ (¬ s.Open c → t.echoed = t.received)) ∧
    ((∃ child ∈ s.children, child.pc = .zombie) → s.pending = true ∨ s.handler = true) := by
  have hs := ForkInv.reachable h
  refine ⟨fun fd f => hs.parent.files_eq_some_iff, fun k child hk fd f => ?_,
    fun c => hs.open_iff, fun c t ht => hs.traffic ht, hs.zombies⟩
  exact (hs.each k child hk).files_eq_some_iff

/-- The first child has echoed a line, closed its connection and exited, and nobody has reaped
it yet; the second connection, accepted under the same number, is still before its fork. -/
theorem processServer_serves_secondAccept : ∃ s, (processServer 3).Reachable s ∧
    s.main = .fork 4 ∧ s.conns = [⟨[104, 10], [104, 10]⟩, ⟨[], []⟩] ∧
    s.children.map Child.pc = [.zombie] ∧ ¬ s.Open 0 ∧ s.Open 1 ∧
    (s.pending = true ∨ s.handler = true) ∧
    ∀ t, s.conns[0]? = some t → t.echoed = t.received := by
  have hinit : (processServer 3).Reachable ⟨.accept, listenOnly 3, [], [], false, false⟩ :=
    System.Reachable.of_init rfl
  have hfork := (hinit.tail (.accept 4 rfl rfl rfl)).tail (.fork 4 rfl rfl)
  have hecho := ((((hfork.tail (.closeListen 0 _ .listening rfl rfl rfl)).tail
    (.readLine 0 0 _ _ [104, 10] rfl rfl rfl rfl (by decide))).tail
    (.write 0 0 _ _ [104, 10] rfl rfl rfl rfl)).tail (.readEof 0 0 _ rfl rfl rfl)).tail
    (.closeConn 0 _ (.conn 0) rfl rfl rfl)
  have hzombie := ((hecho.tail (.close 4 (.conn 0) rfl rfl rfl)).tail (.exit 0 _ rfl rfl)).tail
    (.accept 4 rfl rfl rfl)
  obtain ⟨-, -, hopen, htraffic, hpending⟩ := processServer_serves 3 _ hzombie
  have hclosed := mt (hopen 0).mp (by
    rintro (⟨-, hc⟩ | ⟨child, hk, hc⟩)
    · exact absurd hc (by decide)
    · rw [← Option.some.inj hk] at hc
      cases hc)
  exact ⟨_, hzombie, rfl, rfl, rfl, hclosed, (hopen 1).mpr (.inl ⟨nofun, rfl⟩),
    hpending ⟨_, List.mem_cons_self, rfl⟩, fun t ht => (htraffic 0 t ht).2 hclosed⟩

end ComputerScience.Netprog
