/-
  ComputerScience.Sync.ReadersWriters
  ───────────────────────────────────
  **READERS AND WRITERS** (`25-sync-advanced/rw1.c`): any number of readers and writers
  over two semaphores and one counter.

  A step is one `P`, one `V`, one update of `readcnt` or one test of it.  `w` belongs to
  a writer or to the readers as a group: the first reader in takes it and the last one
  out, usually another thread, gives it back.  A reader may also sleep on `w` while it
  holds `mutex`.

  The invariant counts the threads at each place of the program:

      mutex + (threads between P(&mutex) and V(&mutex))            = 1
      readcnt                                                      = readers counted in
      w + (writers writing) + (1 if some reader is past the gate)  = 1

  Main results:
    • `RwInv.step` — one step of one thread keeps the three equations,
    • `readers_writers_exclusion` — no writer writes beside a writer or a reader.
-/
import ComputerScience.Lib.Pool
import ComputerScience.Lib.TransitionSystem
import ComputerScience.Lib.Word

namespace ComputerScience.Sync

open ComputerScience.Lib

/-! ## §1. The threads and their steps. -/

/-- Where a thread of `rw1.c` is. -/
inductive RwPc where
  /-- `reader`, before the first `P(&mutex)`. -/
  | enter
  /-- before `readcnt++` -/
  | countIn
  /-- before `if (readcnt == 1)` -/
  | firstIn
  /-- before `P(&w)` -/
  | gate
  /-- before the first `V(&mutex)` -/
  | inside
  /-- in the critical section, before the second `P(&mutex)` -/
  | reading
  /-- before `readcnt--` -/
  | countOut
  /-- before `if (readcnt == 0)` -/
  | lastOut
  /-- before `V(&w)` -/
  | ungate
  /-- before the second `V(&mutex)` -/
  | leave
  /-- `writer`, before `P(&w)`. -/
  | writeEnter
  /-- in the critical section, before `V(&w)` -/
  | writing
  deriving DecidableEq, Repr

/-- The global variables.  `readcnt` is a C `int`; `readcnt_int32` below says that it
never leaves the range of one while there are fewer than `2^31` threads. -/
structure RwGlobals where
  readcnt : ℤ
  mutex : ℕ
  w : ℕ

/-- What one thread does next: from its place, over the globals, to its new place. -/
inductive RwAct (g : RwGlobals) : RwPc → RwPc → RwGlobals → Prop where
  | lockIn (hp : 0 < g.mutex) : RwAct g .enter .countIn { g with mutex := g.mutex - 1 }
  | countIn : RwAct g .countIn .firstIn { g with readcnt := g.readcnt + 1 }
  | first (h : g.readcnt = 1) : RwAct g .firstIn .gate g
  | notFirst (h : g.readcnt ≠ 1) : RwAct g .firstIn .inside g
  | gate (hp : 0 < g.w) : RwAct g .gate .inside { g with w := g.w - 1 }
  | unlockIn : RwAct g .inside .reading { g with mutex := g.mutex + 1 }
  | lockOut (hp : 0 < g.mutex) : RwAct g .reading .countOut { g with mutex := g.mutex - 1 }
  | countOut : RwAct g .countOut .lastOut { g with readcnt := g.readcnt - 1 }
  | last (h : g.readcnt = 0) : RwAct g .lastOut .ungate g
  | notLast (h : g.readcnt ≠ 0) : RwAct g .lastOut .leave g
  | ungate : RwAct g .ungate .leave { g with w := g.w + 1 }
  | unlockOut : RwAct g .leave .enter { g with mutex := g.mutex + 1 }
  | writeLock (hp : 0 < g.w) : RwAct g .writeEnter .writing { g with w := g.w - 1 }
  | writeUnlock : RwAct g .writing .writeEnter { g with w := g.w + 1 }

/-- The program: the globals and the threads. -/
structure Rw where
  g : RwGlobals
  threads : List RwPc

/-- One atomic step of one thread. -/
inductive RwStep (s : Rw) : Rw → Prop where
  | act (i : ℕ) (x y : RwPc) (g' : RwGlobals) (h : s.threads[i]? = some x)
      (hact : RwAct s.g x y g') : RwStep s ⟨g', s.threads.set i y⟩

/-- Any number of threads, each at the top of `reader` or of `writer`; `readcnt` is `0`
and both semaphores are `1`. -/
def rwSystem : System Rw where
  init s := (∀ x ∈ s.threads, x = .enter ∨ x = .writeEnter) ∧
    s.g = ⟨0, 1, 1⟩
  step := RwStep

/-! ## §2. Counting threads by place. -/

/-- A reader between its `readcnt++` and its `readcnt--`. -/
def RwPc.counted : RwPc → ℕ
  | .firstIn | .gate | .inside | .reading | .countOut => 1
  | _ => 0

/-- A reader between a `P(&mutex)` and the matching `V(&mutex)`. -/
def RwPc.locked : RwPc → ℕ
  | .countIn | .firstIn | .gate | .inside | .countOut | .lastOut | .ungate | .leave => 1
  | _ => 0

/-- A reader that vouches for `w`: it is past the gate, and has not yet given `w` back
or seen that others are still counted in. -/
def RwPc.gated : RwPc → ℕ
  | .inside | .reading | .countOut | .lastOut | .ungate => 1
  | _ => 0

/-- A writer in its critical section. -/
def RwPc.writes : RwPc → ℕ
  | .writing => 1
  | _ => 0

/-- A reader on its way out, after its last use of `w`. -/
def RwPc.leaves : RwPc → ℕ
  | .leave => 1
  | _ => 0

/-- The last reader, before it gives `w` back. -/
def RwPc.ungates : RwPc → ℕ
  | .ungate => 1
  | _ => 0

/-- A reader about to change `readcnt`. -/
def RwPc.counts : RwPc → ℕ
  | .countIn | .countOut => 1
  | _ => 0

/-- Who is counted in but does not vouch for `w` holds the mutex. -/
theorem counted_le (x : RwPc) : x.counted + x.leaves ≤ x.gated + x.locked := by
  cases x <;> decide

/-- Who vouches for `w` but is not counted in holds the mutex. -/
theorem gated_le (x : RwPc) : x.gated + x.leaves ≤ x.counted + x.locked := by
  cases x <;> decide

/-- `V(&w)` and the updates of `readcnt` are made under the mutex. -/
theorem ungates_le (x : RwPc) : x.ungates + x.counts ≤ x.locked := by
  cases x <;> decide

/-! ## §3. The invariant. -/

/-- **The invariant of `rw1.c`**, as equations between the counts. -/
structure RwInv (s : Rw) : Prop where
  mutex_eq : s.g.mutex + weight RwPc.locked s.threads = 1
  readcnt_eq : s.g.readcnt = weight RwPc.counted s.threads
  w_eq : s.g.w + weight RwPc.writes s.threads + min 1 (weight RwPc.gated s.threads) = 1
  /-- The reader at `V(&w)` was the last one. -/
  ungate_last : 0 < weight RwPc.ungates s.threads → s.g.readcnt = 0

/-- Nobody is past the top of its loop yet. -/
theorem RwInv.init {s : Rw} (h : rwSystem.init s) : RwInv s := by
  obtain ⟨htop, hg⟩ := h
  have hzero : ∀ u : RwPc → ℕ, u .enter = 0 → u .writeEnter = 0 → weight u s.threads = 0 := by
    intro u he hw
    by_contra hpos
    obtain ⟨i, x, hi, hx⟩ := exists_of_weight_pos u (Nat.pos_of_ne_zero hpos)
    rcases htop x (List.mem_of_getElem? hi) with rfl | rfl
    · omega
    · omega
  constructor
  · rw [hg, hzero _ rfl rfl]
  · rw [hg, hzero _ rfl rfl]
    rfl
  · rw [hg, hzero _ rfl rfl, hzero _ rfl rfl]
    rfl
  · intro _
    rw [hg]

section Step

variable {g g' : RwGlobals} {x y : RwPc} {l l' : List RwPc}

/-- The mutex is taken and given back. -/
theorem RwAct.mutex_eq (hact : RwAct g x y g')
    (hset : weight RwPc.locked l' + x.locked = weight RwPc.locked l + y.locked)
    (h : g.mutex + weight RwPc.locked l = 1) : g'.mutex + weight RwPc.locked l' = 1 := by
  cases hact <;> simp only [RwPc.locked] at hset ⊢ <;> omega

/-- `readcnt` follows the readers counted in. -/
theorem RwAct.readcnt_eq (hact : RwAct g x y g')
    (hset : weight RwPc.counted l' + x.counted = weight RwPc.counted l + y.counted)
    (h : g.readcnt = weight RwPc.counted l) : g'.readcnt = weight RwPc.counted l' := by
  cases hact <;> simp only [RwPc.counted] at hset ⊢ <;> omega

/-- `w` is given away and got back.  Two moves need an argument: a reader that is not
the first finds `w` held for the group, and one that is not the last leaves it held. -/
theorem RwAct.w_eq (hact : RwAct g x y g')
    (hwrites : weight RwPc.writes l' + x.writes = weight RwPc.writes l + y.writes)
    (hgated : weight RwPc.gated l' + x.gated = weight RwPc.gated l + y.gated)
    (hfirst : x = .firstIn → g.readcnt ≠ 1 → 0 < weight RwPc.gated l)
    (hleave : y = .leave → (0 < weight RwPc.gated l' ↔ g.readcnt ≠ 0))
    (hungate : x = .ungate → g.readcnt = 0)
    (h : g.w + weight RwPc.writes l + min 1 (weight RwPc.gated l) = 1) :
    g'.w + weight RwPc.writes l' + min 1 (weight RwPc.gated l') = 1 := by
  cases hact with
  | notFirst hne =>
      have hheld := hfirst rfl hne
      simp only [RwPc.writes, RwPc.gated] at hwrites hgated
      omega
  | notLast hne =>
      have hheld := (hleave rfl).mpr hne
      simp only [RwPc.writes, RwPc.gated] at hwrites hgated
      omega
  | ungate =>
      have hnone : ¬ 0 < weight RwPc.gated l' := fun hpos => (hleave rfl).mp hpos (hungate rfl)
      simp only [RwPc.writes, RwPc.gated] at hwrites hgated ⊢
      omega
  | _ =>
      simp only [RwPc.writes, RwPc.gated] at hwrites hgated ⊢
      omega

/-- No action but `readcnt--` to `0` leads to `V(&w)`, and nobody else changes
`readcnt` while a reader stands there. -/
theorem RwAct.ungate_last (hact : RwAct g x y g')
    (hungates : weight RwPc.ungates l' + x.ungates = weight RwPc.ungates l + y.ungates)
    (halone : x.counts = 1 → weight RwPc.ungates l = 0)
    (h : 0 < weight RwPc.ungates l → g.readcnt = 0) :
    0 < weight RwPc.ungates l' → g'.readcnt = 0 := by
  intro hpos
  cases hact with
  | last hzero => exact hzero
  | countIn | countOut =>
      have hnone := halone rfl
      simp only [RwPc.ungates] at hungates
      omega
  | _ =>
      simp only [RwPc.ungates] at hungates
      exact h (by omega)

end Step

/-- **One step of one thread** keeps the invariant. -/
theorem RwInv.step {s s' : Rw} (hs : RwInv s) (h : RwStep s s') : RwInv s' := by
  obtain ⟨i, x, y, g', hi, hact⟩ := h
  have hset := fun u : RwPc → ℕ => weight_set u y hi
  have hmutex := hact.mutex_eq (hset _) hs.mutex_eq
  have hreadcnt := hact.readcnt_eq (hset _) hs.readcnt_eq
  refine ⟨hmutex, hreadcnt, ?_, ?_⟩
  · show g'.w + weight RwPc.writes (s.threads.set i y) +
      min 1 (weight RwPc.gated (s.threads.set i y)) = 1
    refine hact.w_eq (hset _) (hset _) ?_ ?_ ?_ hs.w_eq
    · -- another reader is counted in, and it cannot be before the gate: it has no mutex
      rintro rfl hne
      have hone := le_weight RwPc.counted hi
      have hle := weight_add_mono counted_le s.threads
      have h1 := hs.mutex_eq
      have h2 := hs.readcnt_eq
      simp only [RwPc.counted] at hone
      omega
    · -- the mutex is still held by this reader, so who vouches for `w` is counted in
      rintro rfl
      have hy : (s.threads.set i .leave)[i]? = some RwPc.leave :=
        List.getElem?_set_self (List.getElem?_eq_some_iff.mp hi).1
      have hone : 1 ≤ weight RwPc.leaves (s.threads.set i .leave) := le_weight RwPc.leaves hy
      have hle := weight_add_mono counted_le (s.threads.set i .leave)
      have hge := weight_add_mono gated_le (s.threads.set i .leave)
      have hsame : g'.readcnt = s.g.readcnt := by cases hact <;> rfl
      omega
    · rintro rfl
      exact hs.ungate_last (le_weight RwPc.ungates hi)
  · refine hact.ungate_last (hset _) ?_ hs.ungate_last
    intro hcounts
    have hone := le_weight RwPc.counts hi
    have hle := weight_mono ungates_le s.threads
    rw [weight_add] at hle
    have := hs.mutex_eq
    omega

theorem RwInv.reachable {s : Rw} (h : rwSystem.Reachable s) : RwInv s :=
  h.invariant (fun _ h0 => RwInv.init h0) (fun _ _ _ hs hstep => hs.step hstep)

/-! ## §4. Exclusion. -/

/-- A thread in its critical section. -/
def RwPc.critical : RwPc → Prop
  | .reading | .writing => True
  | _ => False

/-- `readcnt` fits an `int` while there are fewer than `2^31` threads. -/
theorem readcnt_int32 {s : Rw} (h : rwSystem.Reachable s) (hfew : s.threads.length < 2 ^ 31) :
    int32 s.g.readcnt = s.g.readcnt := by
  have hle : weight RwPc.counted s.threads ≤ s.threads.length :=
    weight_le_length (fun x => by cases x <;> decide) _
  rw [(RwInv.reachable h).readcnt_eq]
  exact int32_natCast (by omega)

/-- **Readers and writers exclude each other** in every reachable state, for any number
of threads: beside a writer in its critical section no other thread is in one.
`readcnt` is the number of readers between their increment and their decrement, and the
semaphores stay binary. -/
theorem readers_writers_exclusion {s : Rw} (h : rwSystem.Reachable s) :
    (∀ (i j : ℕ) (x : RwPc), s.threads[i]? = some .writing → s.threads[j]? = some x →
        j ≠ i → ¬ x.critical) ∧
      s.g.readcnt = weight RwPc.counted s.threads ∧ s.g.mutex ≤ 1 ∧ s.g.w ≤ 1 := by
  have hs := RwInv.reachable h
  have h1 := hs.mutex_eq
  have h2 := hs.w_eq
  refine ⟨?_, hs.readcnt_eq, by omega, by omega⟩
  intro i j x hi hj hne hcrit
  -- take the writer out of the pool: what is left neither writes nor reads
  have hout := weight_set RwPc.writes .writeEnter hi
  have hj' : (s.threads.set i .writeEnter)[j]? = some x := by
    rw [List.getElem?_set_ne (fun e => hne e.symm)]
    exact hj
  have hwrites := le_weight RwPc.writes hj'
  have hgated := le_weight RwPc.gated hj
  cases x with
  | reading =>
      simp only [RwPc.writes, RwPc.gated] at hout hgated
      omega
  | writing =>
      simp only [RwPc.writes] at hout hwrites
      omega
  | _ => exact hcrit

/-- A writer writes while a reader waits at the gate with the mutex in its hand. -/
def writerBesideGate : Rw := ⟨⟨1, 0, 0⟩, [.gate, .writing]⟩

theorem writerBesideGate_reachable : rwSystem.Reachable writerBesideGate := by
  have h0 : rwSystem.Reachable ⟨⟨0, 1, 1⟩, [.enter, .writeEnter]⟩ :=
    System.Reachable.of_init ⟨by simp, rfl⟩
  have h1 := h0.tail (RwStep.act 1 _ _ _ rfl (RwAct.writeLock (by decide)))
  have h2 := h1.tail (RwStep.act 0 _ _ _ rfl (RwAct.lockIn (by decide)))
  have h3 := h2.tail (RwStep.act 0 _ _ _ rfl RwAct.countIn)
  exact h3.tail (RwStep.act 0 _ _ _ rfl (RwAct.first rfl))

theorem readers_writers_exclusion_gate : rwSystem.Reachable writerBesideGate ∧
    ¬ RwPc.gate.critical ∧ writerBesideGate.g.readcnt = 1 :=
  have h := readers_writers_exclusion writerBesideGate_reachable
  ⟨writerBesideGate_reachable, h.1 1 0 .gate rfl rfl (by decide), h.2.1⟩

end ComputerScience.Sync
