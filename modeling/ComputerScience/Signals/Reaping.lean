/-
  ComputerScience.Signals.Reaping
  ───────────────────────────────
  **SIGNALS ARE NOT QUEUED** (`15-ecf-signals/forks.c`, `fork14` and `fork15`).

  The parent forks `N` children and spins until a handler for `SIGCHLD` has counted `ccount`
  down to zero.  The handler of `fork14` reaps one child each time it runs, the handler of
  `fork15` reaps until there is no child left.

  A terminating child makes `SIGCHLD` pending, which is one bit: the signals of children that
  terminate before the handler runs, or while it runs, become one.  So `fork14` may wait for
  children that terminated long ago.  Both handlers block `SIGCHLD` while they run (`Signal`);
  a child terminates at any time after its fork, since its `Sleep` promises nothing about the
  parent.  A failing `Fork`, which ends the process, is left out.

  Main results:
    • `fork14_results` — every run stops, and `ccount` is then any number below `N`,
    • `fork15_results` — every run returns with all children reaped.
-/
import ComputerScience.Lib.TransitionSystem
import Mathlib.Data.Fintype.EquivFin
import Mathlib.Data.List.Basic
import Mathlib.Algebra.Ring.Nat

namespace ComputerScience.Signals

open ComputerScience.Lib

/-! ## §1. The parent, its handler, its children. -/

inductive Reaper where
  | fork14
  | fork15
  deriving DecidableEq, Repr

inductive ParentPc where
  /-- at the test of the loop that forks -/
  | forking (i : ℕ)
  /-- `while (ccount > 0) ;` -/
  | spinning
  | returned
  deriving DecidableEq, Repr

/-- `child_handler` and `child_handler2`. -/
inductive ReapPc where
  /-- before `wait(NULL)` -/
  | wait
  /-- `wait` has returned, before `ccount--` -/
  | count (pid : ℕ)
  /-- `child_handler`, before its return -/
  | done
  deriving DecidableEq, Repr

structure Parent where
  main : ParentPc
  ccount : ℤ
  /-- The activation of the handler. -/
  handler : Option ReapPc
  pending : Bool
  live : List ℕ
  zombies : List ℕ
  /-- "Handler reaped child ..", in order. -/
  printed : List ℕ

/-- Where the handler goes on after it has counted a child. -/
def Reaper.next : Reaper → ReapPc
  | .fork14 => .done
  | .fork15 => .wait

/-- One step of the parent, of a child or of the kernel. -/
inductive ReapStep (prog : Reaper) (N : ℕ) (s : Parent) : Parent → Prop where
  | fork (i pid : ℕ) (hh : s.handler = none) (h : s.main = .forking i) (hi : i < N)
      (hnew : pid ∉ s.live ++ s.zombies) :
      ReapStep prog N s { s with main := .forking (i + 1), live := pid :: s.live }
  | forkEnd (i : ℕ) (hh : s.handler = none) (h : s.main = .forking i) (hi : N ≤ i) :
      ReapStep prog N s { s with main := .spinning }
  /-- A turn of the loop that finds `ccount` positive changes nothing. -/
  | spinEnd (hh : s.handler = none) (h : s.main = .spinning) (hc : s.ccount ≤ 0) :
      ReapStep prog N s { s with main := .returned }
  | terminate (pid : ℕ) (h : pid ∈ s.live) :
      ReapStep prog N s { s with
        live := s.live.erase pid, zombies := pid :: s.zombies, pending := true }
  | deliver (hh : s.handler = none) (h : s.main ≠ .returned) (hp : s.pending = true) :
      ReapStep prog N s { s with pending := false, handler := some .wait }
  | reap (pid : ℕ) (hh : s.handler = some .wait) (h : pid ∈ s.zombies) :
      ReapStep prog N s { s with zombies := s.zombies.erase pid, handler := some (.count pid) }
  | count (pid : ℕ) (hh : s.handler = some (.count pid)) :
      ReapStep prog N s { s with
        ccount := s.ccount - 1, printed := s.printed ++ [pid], handler := some prog.next }
  | handlerEnd (hh : s.handler = some .done) :
      ReapStep prog N s { s with handler := none }
  /-- `ECHILD`: `child_handler2` returns.  (`child_handler` ends the process, see
  `ReapInv.zombie`.) -/
  | echild (hh : s.handler = some .wait) (hprog : prog = .fork15) (hlive : s.live = [])
      (hzombies : s.zombies = []) :
      ReapStep prog N s { s with handler := none }

/-- The parent behind `ccount = N` and `Signal`, with `SIGCHLD` not blocked. -/
def reaping (prog : Reaper) (N : ℕ) : System Parent where
  init s := s = ⟨.forking 0, N, none, false, [], [], []⟩
  step := ReapStep prog N

/-! ## §2. Every run stops. -/

def ReapPc.rank : ReapPc → ℕ
  | .wait => 1
  | .count _ => 2
  | .done => 1

def ParentPc.rank (N : ℕ) : ParentPc → ℕ
  | .forking i => 6 * (N - i) + 2
  | .spinning => 1
  | .returned => 0

/-- What is left to do. -/
def Parent.left (N : ℕ) (s : Parent) : ℕ :=
  s.main.rank N + 5 * s.live.length + 2 * s.zombies.length + 2 * s.pending.toNat +
    s.handler.elim 0 ReapPc.rank

variable {prog : Reaper} {N : ℕ} {s s' : Parent}

theorem ReapStep.left_lt (h : ReapStep prog N s s') : s'.left N < s.left N := by
  cases h with
  | fork i pid hh hmain hi hnew =>
      simp only [Parent.left, hmain, ParentPc.rank, List.length_cons]
      omega
  | forkEnd i hh hmain hi =>
      simp only [Parent.left, hmain, ParentPc.rank]
      omega
  | spinEnd hh hmain hc =>
      simp only [Parent.left, hmain, ParentPc.rank]
      omega
  | terminate pid hpid =>
      have hlen := List.length_erase_of_mem hpid
      have hpos := List.length_pos_of_mem hpid
      simp only [Parent.left, List.length_cons, Bool.toNat_true]
      omega
  | deliver hh hmain hp =>
      simp only [Parent.left, hh, hp, Option.elim, ReapPc.rank, Bool.toNat_true, Bool.toNat_false]
      omega
  | reap pid hh hpid =>
      have hlen := List.length_erase_of_mem hpid
      have hpos := List.length_pos_of_mem hpid
      simp only [Parent.left, hh, Option.elim, ReapPc.rank]
      omega
  | count pid hh =>
      have hnext : prog.next.rank = 1 := by cases prog <;> rfl
      have hcount : (ReapPc.count pid).rank = 2 := rfl
      simp only [Parent.left, hh, Option.elim, hnext, hcount]
      omega
  | handlerEnd hh =>
      simp only [Parent.left, hh, Option.elim, ReapPc.rank]
      omega
  | echild hh hprog hlive hzombies =>
      simp only [Parent.left, hh, Option.elim, ReapPc.rank]
      omega

/-! ## §3. The children. -/

/-- 1 for a handler that has reaped a child and not counted it. -/
def ReapPc.holding : ReapPc → ℕ
  | .count _ => 1
  | _ => 0

/-- 1 for a handler before its `wait`. -/
def ReapPc.waiting : ReapPc → ℕ
  | .wait => 1
  | _ => 0

/-- How many children were forked. -/
def ParentPc.forked (N : ℕ) : ParentPc → ℕ
  | .forking i => i
  | _ => N

structure ReapInv (prog : Reaper) (N : ℕ) (s : Parent) : Prop where
  forks : s.main.forked N ≤ N
  children : s.live.length + s.zombies.length + s.handler.elim 0 ReapPc.holding +
    s.printed.length = s.main.forked N
  ccount : s.ccount + s.printed.length = N
  /-- A signal that is pending, or whose handler is about to wait, has left a zombie. -/
  zombie : prog = .fork14 →
    s.pending.toNat + s.handler.elim 0 ReapPc.waiting ≤ s.zombies.length
  /-- Zombies were announced, and the handler of `fork15` leaves none behind. -/
  announced : s.zombies ≠ [] → s.pending = true ∨ s.handler ≠ none ∨
    prog = .fork14 ∧ s.printed ≠ []
  done : s.handler = some .done → prog = .fork14 ∧ s.printed ≠ []

theorem ReapInv.init (prog : Reaper) (N : ℕ) :
    ReapInv prog N ⟨.forking 0, N, none, false, [], [], []⟩ where
  forks := Nat.zero_le N
  children := rfl
  ccount := by simp
  zombie _ := Nat.le_refl _
  announced h := absurd rfl h
  done h := by cases h

/-- **One step** keeps the account of the children. -/
theorem ReapInv.step (h : ReapInv prog N s) (hstep : ReapStep prog N s s') : ReapInv prog N s' := by
  have hchildren := h.children
  have hccount := h.ccount
  have hforks := h.forks
  cases hstep with
  | fork i pid hh hmain hi hnew =>
      rw [hmain] at hchildren
      refine ⟨hi, ?_, hccount, h.zombie, h.announced, h.done⟩
      simp only [ParentPc.forked, List.length_cons] at hchildren ⊢
      omega
  | forkEnd i hh hmain hi =>
      rw [hmain] at hchildren hforks
      refine ⟨Nat.le_refl N, ?_, hccount, h.zombie, h.announced, h.done⟩
      simp only [ParentPc.forked] at hchildren hforks ⊢
      omega
  | spinEnd hh hmain hc =>
      rw [hmain] at hchildren
      exact ⟨Nat.le_refl N, hchildren, hccount, h.zombie, h.announced, h.done⟩
  | terminate pid hpid =>
      have hlen := List.length_erase_of_mem hpid
      have hpos := List.length_pos_of_mem hpid
      refine ⟨hforks, ?_, hccount, ?_, fun _ => .inl rfl, h.done⟩
      · simp only [List.length_cons]
        omega
      · intro hprog
        have hz := h.zombie hprog
        simp only [List.length_cons, Bool.toNat_true]
        omega
  | deliver hh hmain hp =>
      rw [hh] at hchildren
      refine ⟨hforks, hchildren, hccount, ?_, fun _ => .inr (.inl (by simp)), fun hd => by cases hd⟩
      intro hprog
      have hz := h.zombie hprog
      rw [hh, hp] at hz
      exact hz
  | reap pid hh hpid =>
      rw [hh] at hchildren
      have hlen := List.length_erase_of_mem hpid
      have hpos := List.length_pos_of_mem hpid
      refine ⟨hforks, ?_, hccount, ?_, fun _ => .inr (.inl (by simp)), fun hd => by cases hd⟩
      · simp only [Option.elim, ReapPc.holding] at hchildren ⊢
        omega
      · intro hprog
        have hz := h.zombie hprog
        rw [hh] at hz
        simp only [Option.elim, ReapPc.waiting] at hz ⊢
        omega
  | count pid hh =>
      rw [hh] at hchildren
      have hnext : prog.next.holding = 0 := by cases prog <;> rfl
      refine ⟨hforks, ?_, ?_, ?_, fun _ => .inr (.inl (by simp)), ?_⟩
      · simp only [Option.elim, hnext, List.length_append, List.length_singleton]
        simp only [Option.elim, ReapPc.holding] at hchildren
        omega
      · simp only [List.length_append, List.length_singleton]
        omega
      · rintro rfl
        have hz := h.zombie rfl
        rw [hh] at hz
        exact hz
      · intro hd
        refine ⟨?_, by simp⟩
        cases prog with
        | fork14 => rfl
        | fork15 => cases hd
  | handlerEnd hh =>
      rw [hh] at hchildren
      obtain ⟨hprog, hprinted⟩ := h.done hh
      refine ⟨hforks, hchildren, hccount, ?_, fun _ => .inr (.inr ⟨hprog, hprinted⟩),
        fun hd => by cases hd⟩
      intro _
      have hz := h.zombie hprog
      rw [hh] at hz
      exact hz
  | echild hh hprog hlive hzombies =>
      rw [hh] at hchildren
      refine ⟨hforks, hchildren, hccount, ?_, fun hne => absurd hzombies hne, fun hd => by cases hd⟩
      intro h14
      rw [hprog] at h14
      cases h14

theorem ReapInv.reachable (h : (reaping prog N).Reachable s) : ReapInv prog N s := by
  refine h.invariant ?_ (fun _ _ _ hinv hstep => hinv.step hstep)
  rintro s rfl
  exact ReapInv.init prog N

/-- Where a run stops: the parent has returned, or it spins with no signal left to come. -/
theorem ReapInv.stuck (h : ReapInv prog N s) (hstuck : (reaping prog N).Stuck s) :
    s.main = .returned ∨ s.main = .spinning ∧ 0 < s.ccount ∧ s.live = [] ∧ s.pending = false ∧
      s.handler = none := by
  have hlive : s.live = [] := by
    by_contra hne
    obtain ⟨pid, hpid⟩ := List.exists_mem_of_ne_nil _ hne
    exact hstuck _ (.terminate pid hpid)
  have hhandler : s.handler = none := by
    cases hh : s.handler with
    | none => rfl
    | some pc =>
        exfalso
        cases pc with
        | wait =>
            cases hz : s.zombies with
            | nil =>
                cases prog with
                | fork14 =>
                    have hzombie := h.zombie rfl
                    rw [hh, hz] at hzombie
                    simp [ReapPc.waiting] at hzombie
                | fork15 => exact hstuck _ (.echild hh rfl hlive hz)
            | cons pid zs => exact hstuck _ (.reap pid hh (by rw [hz]; exact List.mem_cons_self))
        | count pid => exact hstuck _ (.count pid hh)
        | done => exact hstuck _ (.handlerEnd hh)
  cases hmain : s.main with
  | forking i =>
      exfalso
      rcases Nat.lt_or_ge i N with hi | hi
      · obtain ⟨pid, hpid⟩ := Infinite.exists_notMem_finset (s.live ++ s.zombies).toFinset
        rw [List.mem_toFinset] at hpid
        exact hstuck _ (.fork i pid hhandler hmain hi hpid)
      · exact hstuck _ (.forkEnd i hhandler hmain hi)
  | spinning =>
      refine .inr ⟨rfl, ?_, hlive, ?_, hhandler⟩
      · by_contra hc
        exact hstuck _ (.spinEnd hhandler hmain (by omega))
      · by_contra hp
        exact hstuck _ (.deliver hhandler (by rw [hmain]; simp) (by simpa using hp))
  | returned => exact .inl rfl

theorem returned_ccount (h : (reaping prog N).Reachable s) (hmain : s.main = .returned) :
    s.ccount ≤ 0 := by
  refine h.invariant (I := fun s => s.main = .returned → s.ccount ≤ 0) ?_ ?_ hmain
  · rintro s rfl hmain
    cases hmain
  · intro s s' hreach ih hstep hmain
    cases hstep with
    | spinEnd hh h hc => exact hc
    | fork i pid hh h hi hnew => cases hmain
    | forkEnd i hh h hi => cases hmain
    | count pid hh =>
        have := ih hmain
        show s.ccount - 1 ≤ 0
        omega
    | _ => exact ih hmain

/-! ## §4. `fork15`. -/

/-- **`fork15`**: every run returns, with every child reaped and printed. -/
theorem fork15_results (N : ℕ) : (reaping .fork15 N).EndsIn fun s =>
    s.main = .returned ∧ s.ccount = 0 ∧ s.printed.length = N ∧ s.live = [] ∧ s.zombies = [] := by
  refine System.ends_of_measure (Parent.left N) (fun _ _ _ hstep => hstep.left_lt) ?_
  intro s hreach hstuck
  have hinv := ReapInv.reachable hreach
  have hccount := hinv.ccount
  have hchildren := hinv.children
  have hforks := hinv.forks
  rcases hinv.stuck hstuck with hmain | ⟨hmain, hpos, hlive, hpending, hhandler⟩
  · have hle := returned_ccount hreach hmain
    refine ⟨hmain, by omega, by omega, ?_, ?_⟩
    · exact List.eq_nil_of_length_eq_zero (by omega)
    · exact List.eq_nil_of_length_eq_zero (by omega)
  · -- a zombie would be announced
    exfalso
    have hzombies : s.zombies = [] := by
      by_contra hne
      rcases hinv.announced hne with hp | hh | ⟨hprog, -⟩
      · rw [hpending] at hp
        cases hp
      · exact hh hhandler
      · cases hprog
    rw [hlive, hzombies, hhandler, hmain] at hchildren
    simp only [List.length_nil, Option.elim, ParentPc.forked] at hchildren
    omega

/-! ## §5. `fork14`. -/

theorem stuck_of (hmain : s.main = .returned ∨ s.main = .spinning ∧ 0 < s.ccount)
    (hlive : s.live = []) (hpending : s.pending = false) (hhandler : s.handler = none) :
    (reaping prog N).Stuck s := by
  intro s' hstep
  have hnot : ∀ i, s.main ≠ .forking i := by
    rintro i hi
    rw [hi] at hmain
    rcases hmain with h | ⟨h, -⟩ <;> cases h
  cases hstep with
  | fork i pid hh h hi hnew => exact hnot i h
  | forkEnd i hh h hi => exact hnot i h
  | spinEnd hh h hc =>
      rcases hmain with hret | ⟨-, hpos⟩
      · rw [h] at hret
        cases hret
      · omega
  | terminate pid h =>
      rw [hlive] at h
      cases h
  | deliver hh h hp =>
      rw [hpending] at hp
      cases hp
  | reap pid hh h =>
      rw [hhandler] at hh
      cases hh
  | count pid hh =>
      rw [hhandler] at hh
      cases hh
  | handlerEnd hh =>
      rw [hhandler] at hh
      cases hh
  | echild hh hprog hl hz =>
      rw [hhandler] at hh
      cases hh

/-- The parent forks all children before one of them terminates. -/
theorem reachable_forked (N : ℕ) {k : ℕ} (hk : k ≤ N) :
    (reaping prog N).Reachable ⟨.forking k, N, none, false, (List.range k).reverse, [], []⟩ := by
  induction k with
  | zero => exact System.Reachable.of_init rfl
  | succ k ih =>
      have hnew : k ∉ (List.range k).reverse ++ [] := by simp
      have hstep := (ih (by omega)).tail (ReapStep.fork k k rfl rfl hk hnew)
      rw [List.range_succ, List.reverse_append]
      exact hstep

variable {c : ℤ} {p : Bool} {l zs printed : List ℕ}

theorem step_terminate (pid : ℕ) : (reaping prog N).step
    ⟨.spinning, c, none, p, pid :: l, zs, printed⟩
    ⟨.spinning, c, none, true, l, pid :: zs, printed⟩ := by
  have hstep : ReapStep prog N ⟨.spinning, c, none, p, pid :: l, zs, printed⟩
      ⟨.spinning, c, none, true, (pid :: l).erase pid, pid :: zs, printed⟩ :=
    ReapStep.terminate pid List.mem_cons_self
  rw [List.erase_cons_head] at hstep
  exact hstep

/-- Some children terminate, and one signal is pending. -/
theorem runs_terminate (pid : ℕ) (ks : List ℕ) : Relation.ReflTransGen (reaping prog N).step
    ⟨.spinning, c, none, p, pid :: (ks ++ l), zs, printed⟩
    ⟨.spinning, c, none, true, l, ks.reverse ++ pid :: zs, printed⟩ := by
  induction ks generalizing pid zs p with
  | nil => exact .single (step_terminate pid)
  | cons k ks ih =>
      rw [List.reverse_cons, List.append_assoc]
      exact .head (step_terminate pid) (ih k)

/-- The handler of `fork14` runs once. -/
theorem runs_handler (pid : ℕ) : Relation.ReflTransGen (reaping .fork14 N).step
    ⟨.spinning, c, none, true, l, pid :: zs, printed⟩
    ⟨.spinning, c - 1, none, false, l, zs, printed ++ [pid]⟩ := by
  have hdeliver : (reaping .fork14 N).step ⟨.spinning, c, none, true, l, pid :: zs, printed⟩
      ⟨.spinning, c, some .wait, false, l, pid :: zs, printed⟩ :=
    ReapStep.deliver rfl (by simp) rfl
  have hreap : ReapStep .fork14 N ⟨.spinning, c, some .wait, false, l, pid :: zs, printed⟩
      ⟨.spinning, c, some (.count pid), false, l, (pid :: zs).erase pid, printed⟩ :=
    ReapStep.reap pid rfl List.mem_cons_self
  rw [List.erase_cons_head] at hreap
  have hcount : (reaping .fork14 N).step ⟨.spinning, c, some (.count pid), false, l, zs, printed⟩
      ⟨.spinning, c - 1, some .done, false, l, zs, printed ++ [pid]⟩ :=
    ReapStep.count pid rfl
  exact ((Relation.ReflTransGen.single hdeliver).tail hreap).tail hcount |>.tail
    (ReapStep.handlerEnd rfl)

/-- From then on the children terminate one after another, each when the handler is back. -/
theorem reachable_one_by_one {ks : List ℕ}
    (h : (reaping .fork14 N).Reachable ⟨.spinning, c, none, false, ks, zs, printed⟩) :
    ∃ printed', (reaping .fork14 N).Reachable
      ⟨.spinning, c - ks.length, none, false, [], zs, printed'⟩ := by
  induction ks generalizing c printed with
  | nil =>
      have hsame : c - (([] : List ℕ).length : ℤ) = c := Int.sub_zero c
      exact ⟨printed, by rw [hsame]; exact h⟩
  | cons pid ks ih =>
      have hless : c - ((pid :: ks).length : ℤ) = c - 1 - ks.length := by
        rw [List.length_cons]
        omega
      rw [hless]
      exact ih ((h.tail (step_terminate pid)).trans (runs_handler pid))

/-- **The schedule for `v`**: first `v + 1` children terminate at once, then the others one
after another. -/
theorem reachable_spinning {v : ℕ} (hv : v < N) : ∃ zs printed, zs.length = v ∧
    (reaping .fork14 N).Reachable ⟨.spinning, v, none, false, [], zs, printed⟩ := by
  have hforked : (reaping .fork14 N).Reachable _ := reachable_forked N (Nat.le_refl N)
  have hspin := hforked.tail (ReapStep.forkEnd N rfl rfl (Nat.le_refl N))
  have hlen : (List.range N).reverse.length = N := by rw [List.length_reverse, List.length_range]
  -- the first one, the next `v`, and the others
  obtain ⟨pid, rest, hpids⟩ := List.exists_cons_of_length_pos (l := (List.range N).reverse) (by omega)
  rw [hpids, List.length_cons] at hlen
  rw [hpids, ← List.take_append_drop v rest] at hspin
  have hmany := hspin.trans (runs_terminate pid (rest.take v))
  have hzombies : ((rest.take v).reverse ++ [pid]).length = v + 1 := by
    rw [List.length_append, List.length_reverse, List.length_take, List.length_singleton]
    omega
  obtain ⟨z, zs, hz⟩ := List.exists_cons_of_length_pos (l := (rest.take v).reverse ++ [pid]) (by omega)
  rw [hz] at hmany
  obtain ⟨printed, hall⟩ := reachable_one_by_one (hmany.trans (runs_handler z))
  have hcount : (N : ℤ) - 1 - (rest.drop v).length = v := by
    rw [List.length_drop]
    omega
  rw [hcount] at hall
  refine ⟨zs, printed, ?_, hall⟩
  rw [hz, List.length_cons] at hzombies
  omega

/-- Where a run of `fork14` stops. -/
theorem fork14_stuck (hreach : (reaping .fork14 N).Reachable s)
    (hstuck : (reaping .fork14 N).Stuck s) :
    ((s.main = .returned ∧ s.ccount = 0) ∨ (s.main = .spinning ∧ 0 < s.ccount)) ∧ s.live = [] ∧
      (s.zombies.length : ℤ) = s.ccount ∧ s.ccount ≤ (N - 1 : ℕ) := by
  have hinv := ReapInv.reachable hreach
  have hccount := hinv.ccount
  have hchildren := hinv.children
  have hforks := hinv.forks
  rcases hinv.stuck hstuck with hmain | ⟨hmain, hpos, hlive, hpending, hhandler⟩
  · have hle := returned_ccount hreach hmain
    have hlive : s.live = [] := List.eq_nil_of_length_eq_zero (by omega)
    have hzero : s.ccount = 0 := by omega
    have hzombies : s.zombies.length = 0 := by omega
    refine ⟨.inl ⟨hmain, hzero⟩, hlive, ?_, ?_⟩
    · rw [hzombies, hzero]
      rfl
    · omega
  · rw [hlive, hhandler, hmain] at hchildren
    simp only [List.length_nil, Option.elim, ParentPc.forked] at hchildren
    -- there are zombies, so at least one was announced, and reaped
    have hne : s.zombies ≠ [] := by
      intro hnil
      rw [hnil, List.length_nil] at hchildren
      omega
    have hprinted : 0 < s.printed.length := by
      rcases hinv.announced hne with hp | hh | ⟨-, hp⟩
      · rw [hpending] at hp
        cases hp
      · exact absurd hhandler hh
      · exact List.length_pos_iff.mpr hp
    exact ⟨.inr ⟨hmain, hpos⟩, hlive, by omega, by omega⟩

/-- **`fork14`**: every run stops.  Either the parent has returned and all children were
reaped, or it spins for ever with `ccount` zombies; that may be any number of them but all. -/
theorem fork14_results (N : ℕ) :
    ((reaping .fork14 N).EndsIn fun s =>
      ((s.main = .returned ∧ s.ccount = 0) ∨ (s.main = .spinning ∧ 0 < s.ccount)) ∧ s.live = [] ∧
        (s.zombies.length : ℤ) = s.ccount) ∧
    ∀ v : ℤ, (∃ s, (reaping .fork14 N).Reachable s ∧ (reaping .fork14 N).Stuck s ∧ s.ccount = v) ↔
      0 ≤ v ∧ v ≤ (N - 1 : ℕ) := by
  refine ⟨System.ends_of_measure (Parent.left N) (fun _ _ _ hstep => hstep.left_lt) ?_, ?_⟩
  · intro s hreach hstuck
    obtain ⟨hmain, hlive, hzombies, -⟩ := fork14_stuck hreach hstuck
    exact ⟨hmain, hlive, hzombies⟩
  · intro v
    constructor
    · rintro ⟨s, hreach, hstuck, rfl⟩
      obtain ⟨-, -, hzombies, hle⟩ := fork14_stuck hreach hstuck
      exact ⟨by omega, hle⟩
    · rintro ⟨h0, hle⟩
      obtain ⟨k, rfl⟩ := Int.eq_ofNat_of_zero_le h0
      rcases Nat.eq_zero_or_pos k with rfl | hk
      · -- the parent returns
        have hspin : ∃ zs printed, (reaping .fork14 N).Reachable
            ⟨.spinning, ((0 : ℕ) : ℤ), none, false, [], zs, printed⟩ := by
          rcases Nat.eq_zero_or_pos N with rfl | hN
          · exact ⟨[], [], (reachable_forked 0 (Nat.le_refl 0)).tail
              (ReapStep.forkEnd 0 rfl rfl (Nat.le_refl 0))⟩
          · obtain ⟨zs, printed, -, hreach⟩ := reachable_spinning hN
            exact ⟨zs, printed, hreach⟩
        obtain ⟨zs, printed, hreach⟩ := hspin
        exact ⟨_, hreach.tail (ReapStep.spinEnd rfl rfl (Int.le_refl 0)),
          stuck_of (.inl rfl) rfl rfl rfl, rfl⟩
      · obtain ⟨zs, printed, -, hreach⟩ := reachable_spinning (show k < N by omega)
        exact ⟨_, hreach, stuck_of (.inr ⟨rfl, by show (0 : ℤ) < k; omega⟩) rfl rfl rfl, rfl⟩

end ComputerScience.Signals
