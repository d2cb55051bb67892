/-
  ComputerScience.Sync.Sbuf
  ─────────────────────────
  **THE BOUNDED BUFFER** (`25-sync-advanced/sbuf.c`): producers in `sbuf_insert`,
  consumers in `sbuf_remove`, three semaphores and two counters.

  Any number of threads run; a step is one `P`, one `V` or one access to the buffer.
  `front` and `rear` are C `int`s that wrap, and the index is C's `%`.  Two histories
  are kept beside the program: the items in the order their insertions took the mutex,
  and the removals in the order they took it, each with the item it read.

  The invariant is an account of tokens.  A thread owes a slot from `P(slots)` to the
  store and from the load to `V(slots)`; it owes an item from the store to `V(items)`
  and from `P(items)` to the load:

      rear - front = items + (threads that owe an item)
      rear - front + slots + (threads that owe a slot) = n
-/
import ComputerScience.Lib.Pool
import ComputerScience.Lib.TransitionSystem
import ComputerScience.Lib.Word

namespace ComputerScience.Sync

open ComputerScience.Lib

/-! ## §1. The buffer and its threads. -/

/-- `sbuf_t`.  A cell of `buf` is `none` until a producer writes it (`Calloc` fills it
with `0`). -/
structure SbufT where
  buf : ℤ → Option ℤ
  n : ℤ
  front : ℤ
  rear : ℤ
  mutex : ℕ
  slots : ℕ
  items : ℕ

/-- Where a thread is.  The argument `k` of a removal that holds or held the mutex is
its place in the order in which the removals took it. -/
inductive Pc where
  /-- Outside both routines. -/
  | idle
  /-- `sbuf_insert`, before `P(&sp->slots)`. -/
  | insSlots (item : ℤ)
  /-- before `P(&sp->mutex)` -/
  | insMutex (item : ℤ)
  /-- before the store -/
  | insStore (item : ℤ)
  /-- before `V(&sp->mutex)` -/
  | insUnlock
  /-- before `V(&sp->items)` -/
  | insItems
  /-- `sbuf_remove`, before `P(&sp->items)`. -/
  | remItems
  /-- before `P(&sp->mutex)` -/
  | remMutex
  /-- before the load -/
  | remLoad (k : ℕ)
  /-- before `V(&sp->mutex)` -/
  | remUnlock (k : ℕ) (item : ℤ)
  /-- before `V(&sp->slots)` and `return item` -/
  | remSlots (k : ℕ) (item : ℤ)
  deriving DecidableEq, Repr

/-- The buffer, the threads, and the histories. -/
structure Sbuf where
  sp : SbufT
  threads : List Pc
  /-- Items, in the order their insertions took the mutex. -/
  inserted : List ℤ
  /-- Removals, in the order they took the mutex, with the item each one read. -/
  removals : List (Option ℤ)
  /-- Values returned by `sbuf_remove`, each with the place of its removal. -/
  returned : List (ℕ × ℤ)

/-- `++x` for an `int`. -/
def incr (x : ℤ) : ℤ := int32 (x + 1)

/-- The cell `(++rear) % n`, respectively `(++front) % n`, with C's remainder. -/
def SbufT.slot (sp : SbufT) (x : ℤ) : ℤ := (incr x).tmod sp.n

/-- `sbuf_init(sp, n)`, with all threads still outside. -/
def sbufInit (n : ℤ) (threads : List Pc) : Sbuf where
  sp := ⟨fun _ => none, n, 0, 0, 1, n.toNat, 0⟩
  threads := threads
  inserted := []
  removals := []
  returned := []

/-- One atomic step of one thread. -/
inductive SbufStep (s : Sbuf) : Sbuf → Prop where
  | callInsert (i : ℕ) (item : ℤ) (h : s.threads[i]? = some .idle) :
      SbufStep s { s with threads := s.threads.set i (.insSlots item) }
  | pSlots (i : ℕ) (item : ℤ) (h : s.threads[i]? = some (.insSlots item))
      (hp : 0 < s.sp.slots) :
      SbufStep s { s with
        sp := { s.sp with slots := s.sp.slots - 1 }
        threads := s.threads.set i (.insMutex item) }
  | insLock (i : ℕ) (item : ℤ) (h : s.threads[i]? = some (.insMutex item))
      (hp : 0 < s.sp.mutex) :
      SbufStep s { s with
        sp := { s.sp with mutex := s.sp.mutex - 1 }
        threads := s.threads.set i (.insStore item)
        -- the history is written where the mutex is taken, which fixes the order
        inserted := s.inserted ++ [item] }
  | store (i : ℕ) (item : ℤ) (h : s.threads[i]? = some (.insStore item)) :
      SbufStep s { s with
        sp := { s.sp with
          rear := incr s.sp.rear
          buf := Function.update s.sp.buf (s.sp.slot s.sp.rear) (some item) }
        threads := s.threads.set i .insUnlock }
  | insUnlock (i : ℕ) (h : s.threads[i]? = some .insUnlock) :
      SbufStep s { s with
        sp := { s.sp with mutex := s.sp.mutex + 1 }
        threads := s.threads.set i .insItems }
  | vItems (i : ℕ) (h : s.threads[i]? = some .insItems) :
      SbufStep s { s with
        sp := { s.sp with items := s.sp.items + 1 }
        threads := s.threads.set i .idle }
  | callRemove (i : ℕ) (h : s.threads[i]? = some .idle) :
      SbufStep s { s with threads := s.threads.set i .remItems }
  | pItems (i : ℕ) (h : s.threads[i]? = some .remItems) (hp : 0 < s.sp.items) :
      SbufStep s { s with
        sp := { s.sp with items := s.sp.items - 1 }
        threads := s.threads.set i .remMutex }
  | remLock (i : ℕ) (h : s.threads[i]? = some .remMutex) (hp : 0 < s.sp.mutex) :
      SbufStep s { s with
        sp := { s.sp with mutex := s.sp.mutex - 1 }
        threads := s.threads.set i (.remLoad s.removals.length)
        -- a removal enters the history before it has an item
        removals := s.removals ++ [none] }
  | load (i k : ℕ) (h : s.threads[i]? = some (.remLoad k)) :
      SbufStep s { s with
        sp := { s.sp with front := incr s.sp.front }
        threads := s.threads.set i
          (.remUnlock k ((s.sp.buf (s.sp.slot s.sp.front)).getD 0))
        removals := s.removals.set k (some ((s.sp.buf (s.sp.slot s.sp.front)).getD 0)) }
  | remUnlock (i k : ℕ) (item : ℤ) (h : s.threads[i]? = some (.remUnlock k item)) :
      SbufStep s { s with
        sp := { s.sp with mutex := s.sp.mutex + 1 }
        threads := s.threads.set i (.remSlots k item) }
  | vSlots (i k : ℕ) (item : ℤ) (h : s.threads[i]? = some (.remSlots k item)) :
      SbufStep s { s with
        sp := { s.sp with slots := s.sp.slots + 1 }
        threads := s.threads.set i .idle
        returned := s.returned ++ [(k, item)] }

/-- The buffer of `n` slots shared by any number of threads. -/
def sbufSystem (n : ℤ) : System Sbuf where
  init s := ∃ threads, (∀ pc ∈ threads, pc = Pc.idle) ∧ s = sbufInit n threads
  step := SbufStep

/-! ## §2. Token counts. -/

/-- The thread is between the store and `V(items)`, or between `P(items)` and the load. -/
def Pc.owesItem : Pc → ℕ
  | .insUnlock | .insItems | .remMutex | .remLoad _ => 1
  | _ => 0

/-- The thread is between `P(slots)` and the store, or between the load and `V(slots)`. -/
def Pc.owesSlot : Pc → ℕ
  | .insMutex _ | .insStore _ | .remUnlock _ _ | .remSlots _ _ => 1
  | _ => 0

/-- The thread holds the mutex. -/
def Pc.locked : Pc → ℕ
  | .insStore _ | .insUnlock | .remLoad _ | .remUnlock _ _ => 1
  | _ => 0

/-- The thread holds the mutex and is about to store. -/
def Pc.storing : Pc → ℕ
  | .insStore _ => 1
  | _ => 0

/-- The thread holds the mutex and is about to load. -/
def Pc.loading : Pc → ℕ
  | .remLoad _ => 1
  | _ => 0

/-- The place and the item of a removal that has loaded and not returned. -/
def Pc.carried : Pc → Option (ℕ × ℤ)
  | .remUnlock k v | .remSlots k v => some (k, v)
  | _ => none

/-- The account: `f` loads and `r` stores so far. -/
structure Account (s : Sbuf) (f r : ℕ) : Prop where
  front_eq : s.sp.front = f
  rear_eq : s.sp.rear = r
  items_eq : r = f + s.sp.items + weight Pc.owesItem s.threads
  slots_eq : (r : ℤ) + s.sp.slots + weight Pc.owesSlot s.threads = f + s.sp.n
  mutex_eq : s.sp.mutex + weight Pc.locked s.threads = 1
  inserted_eq : s.inserted.length = r + weight Pc.storing s.threads
  removals_eq : s.removals.length = f + weight Pc.loading s.threads

/-- The counts after one thread went from `x` to `y`. -/
theorem counts_set {l : List Pc} {i : ℕ} {x : Pc} (y : Pc) (h : l[i]? = some x) :
    (weight Pc.owesItem (l.set i y) + x.owesItem = weight Pc.owesItem l + y.owesItem ∧
      weight Pc.owesSlot (l.set i y) + x.owesSlot = weight Pc.owesSlot l + y.owesSlot) ∧
    weight Pc.locked (l.set i y) + x.locked = weight Pc.locked l + y.locked ∧
    weight Pc.storing (l.set i y) + x.storing = weight Pc.storing l + y.storing ∧
    weight Pc.loading (l.set i y) + x.loading = weight Pc.loading l + y.loading :=
  ⟨⟨weight_set _ y h, weight_set _ y h⟩, weight_set _ y h, weight_set _ y h, weight_set _ y h⟩

/-- The account without the counters: the tokens after `f` loads and `r` stores. -/
structure Tokens (s : Sbuf) (f r : ℕ) : Prop where
  items_eq : r = f + s.sp.items + weight Pc.owesItem s.threads
  slots_eq : (r : ℤ) + s.sp.slots + weight Pc.owesSlot s.threads = f + s.sp.n
  mutex_eq : s.sp.mutex + weight Pc.locked s.threads = 1
  inserted_eq : s.inserted.length = r + weight Pc.storing s.threads
  removals_eq : s.removals.length = f + weight Pc.loading s.threads

theorem Account.tokens {s : Sbuf} {f r : ℕ} (h : Account s f r) : Tokens s f r :=
  ⟨h.items_eq, h.slots_eq, h.mutex_eq, h.inserted_eq, h.removals_eq⟩

theorem Tokens.account {s : Sbuf} {f r : ℕ} (h : Tokens s f r) (hfront : s.sp.front = f)
    (hrear : s.sp.rear = r) : Account s f r :=
  ⟨hfront, hrear, h.items_eq, h.slots_eq, h.mutex_eq, h.inserted_eq, h.removals_eq⟩

section Tokens

variable {s : Sbuf} {f r i : ℕ}

/-- A step of a semaphore: it moves one token between the semaphore and the thread. -/
theorem Tokens.semStep (ht : Tokens s f r) {x : Pc} (y : Pc) (h : s.threads[i]? = some x)
    (mutex slots items : ℕ) (returned : List (ℕ × ℤ))
    (hitems : items + y.owesItem = s.sp.items + x.owesItem)
    (hslots : slots + y.owesSlot = s.sp.slots + x.owesSlot)
    (hmutex : mutex + y.locked = s.sp.mutex + x.locked)
    (hstoring : x.storing = 0 ∧ y.storing = 0) (hloading : x.loading = 0 ∧ y.loading = 0) :
    Tokens { s with
      sp := { s.sp with mutex := mutex, slots := slots, items := items }
      threads := s.threads.set i y
      returned := returned } f r := by
  obtain ⟨⟨h1, h2⟩, h3, h4, h5⟩ := counts_set y h
  obtain ⟨a1, a2, a3, a4, a5⟩ := ht
  refine ⟨?_, ?_, ?_, ?_, ?_⟩ <;> dsimp only <;> omega

/-- An insertion takes the mutex. -/
theorem Tokens.insLock (ht : Tokens s f r) {item : ℤ} (h : s.threads[i]? = some (.insMutex item))
    (hp : 0 < s.sp.mutex) :
    Tokens { s with
      sp := { s.sp with mutex := s.sp.mutex - 1 }
      threads := s.threads.set i (.insStore item)
      inserted := s.inserted ++ [item] } f r := by
  obtain ⟨⟨h1, h2⟩, h3, h4, h5⟩ := counts_set (.insStore item) h
  simp only [Pc.owesItem, Pc.owesSlot, Pc.locked, Pc.storing, Pc.loading] at h1 h2 h3 h4 h5
  have hlen : (s.inserted ++ [item]).length = s.inserted.length + 1 := by simp
  obtain ⟨a1, a2, a3, a4, a5⟩ := ht
  refine ⟨?_, ?_, ?_, ?_, ?_⟩ <;> dsimp only <;> omega

/-- A store, whatever it does to the cells. -/
theorem Tokens.store (ht : Tokens s f r) {item : ℤ} (h : s.threads[i]? = some (.insStore item))
    (rear : ℤ) (buf : ℤ → Option ℤ) :
    Tokens { s with
      sp := { s.sp with rear := rear, buf := buf }
      threads := s.threads.set i .insUnlock } f (r + 1) := by
  obtain ⟨⟨h1, h2⟩, h3, h4, h5⟩ := counts_set .insUnlock h
  simp only [Pc.owesItem, Pc.owesSlot, Pc.locked, Pc.storing, Pc.loading] at h1 h2 h3 h4 h5
  obtain ⟨a1, a2, a3, a4, a5⟩ := ht
  refine ⟨?_, ?_, ?_, ?_, ?_⟩ <;> dsimp only <;> omega

/-- A removal takes the mutex. -/
theorem Tokens.remLock (ht : Tokens s f r) (h : s.threads[i]? = some .remMutex)
    (hp : 0 < s.sp.mutex) :
    Tokens { s with
      sp := { s.sp with mutex := s.sp.mutex - 1 }
      threads := s.threads.set i (.remLoad s.removals.length)
      removals := s.removals ++ [none] } f r := by
  obtain ⟨⟨h1, h2⟩, h3, h4, h5⟩ := counts_set (.remLoad s.removals.length) h
  simp only [Pc.owesItem, Pc.owesSlot, Pc.locked, Pc.storing, Pc.loading] at h1 h2 h3 h4 h5
  have hlen : (s.removals ++ [none]).length = s.removals.length + 1 := by simp
  obtain ⟨a1, a2, a3, a4, a5⟩ := ht
  refine ⟨?_, ?_, ?_, ?_, ?_⟩ <;> dsimp only <;> omega

/-- A removal about to load has an item before it. -/
theorem Tokens.load_lt (ht : Tokens s f r) {k : ℕ} (h : s.threads[i]? = some (.remLoad k)) :
    f < r := by
  have h1 := le_weight Pc.owesItem h
  have h2 : Pc.owesItem (.remLoad k) = 1 := rfl
  have h3 := ht.items_eq
  omega

/-- A load, whatever it reads. -/
theorem Tokens.load (ht : Tokens s f r) {k : ℕ} (h : s.threads[i]? = some (.remLoad k))
    (front item : ℤ) :
    Tokens { s with
      sp := { s.sp with front := front }
      threads := s.threads.set i (.remUnlock k item)
      removals := s.removals.set k (some item) } (f + 1) r := by
  obtain ⟨⟨h1, h2⟩, h3, h4, h5⟩ := counts_set (.remUnlock k item) h
  simp only [Pc.owesItem, Pc.owesSlot, Pc.locked, Pc.storing, Pc.loading] at h1 h2 h3 h4 h5
  have hlen : (s.removals.set k (some item)).length = s.removals.length := List.length_set
  obtain ⟨a1, a2, a3, a4, a5⟩ := ht
  refine ⟨?_, ?_, ?_, ?_, ?_⟩ <;> dsimp only <;> omega

end Tokens

/-- `++` before the counter reaches `INT_MAX`. -/
theorem incr_of_lt {r : ℕ} (h : r + 1 < 2 ^ 31) : incr (r : ℤ) = ((r + 1 : ℕ) : ℤ) := by
  unfold incr
  rw [int32_of_range (by omega) (by omega)]
  omega

/-- The mutex is held by at most one thread. -/
theorem Account.locked_unique {s : Sbuf} {f r : ℕ} (hacc : Account s f r) {i j : ℕ} {x y : Pc}
    (hi : s.threads[i]? = some x) (hj : s.threads[j]? = some y)
    (hx : x.locked = 1) (hy : y.locked = 1) : i = j := by
  by_contra hne
  -- take both threads out of the critical section: the count would go below zero
  have h1 := weight_set Pc.locked Pc.idle hi
  have hj' : (s.threads.set i Pc.idle)[j]? = some y := by
    rw [List.getElem?_set_ne hne]
    exact hj
  have h2 := weight_set Pc.locked Pc.idle hj'
  have h3 : Pc.locked Pc.idle = 0 := rfl
  have := hacc.mutex_eq
  omega

/-! ## §3. The contents of the buffer and of the histories. -/

/-- What the cells and the histories hold after `f` loads and `r` stores. -/
structure Contents (s : Sbuf) (f r : ℕ) : Prop where
  /-- The cells between `front` and `rear` hold the items inserted there. -/
  cell : ∀ j, f ≤ j → j < r → ∃ v, s.inserted[j]? = some v ∧
    s.sp.buf (((j + 1 : ℕ) : ℤ).tmod s.sp.n) = some v
  /-- The insertion that holds the mutex is the last one in the history. -/
  storing : ∀ (i : ℕ) (item : ℤ), s.threads[i]? = some (.insStore item) →
    s.inserted[r]? = some item
  /-- The removal that holds the mutex is the last one in the history. -/
  loading : ∀ i k : ℕ, s.threads[i]? = some (.remLoad k) → k = f
  /-- A removal that has loaded got the item of its place. -/
  loaded : ∀ j, j < f → ∃ v, s.removals[j]? = some (some v) ∧ s.inserted[j]? = some v
  /-- A removal whose turn has not come has no item yet. -/
  pending : ∀ j, f ≤ j → j < s.removals.length → s.removals[j]? = some none
  held : ∀ (i : ℕ) (x : Pc), s.threads[i]? = some x → ∀ k v, x.carried = some (k, v) →
    s.removals[k]? = some (some v)
  returned : ∀ (k : ℕ) (v : ℤ), (k, v) ∈ s.returned → s.removals[k]? = some (some v)

/-- Two counters less than `n` apart have different remainders. -/
theorem emod_ne {n : ℤ} {j k : ℕ} (hjk : j < k) (hn : (k : ℤ) < j + n) :
    (j : ℤ) % n ≠ (k : ℤ) % n := by
  intro h
  have hdvd : n ∣ (k : ℤ) - j :=
    Int.dvd_of_emod_eq_zero (Int.emod_eq_emod_iff_emod_sub_eq_zero.mp h.symm)
  have := Int.le_of_dvd (by omega) hdvd
  omega

/-- Two places less than `n` apart use different cells. -/
theorem slot_ne {n : ℤ} {j r : ℕ} (hjr : j < r) (hn : (r : ℤ) < j + n) :
    ((j + 1 : ℕ) : ℤ).tmod n ≠ ((r + 1 : ℕ) : ℤ).tmod n := by
  rw [Int.tmod_eq_emod_of_nonneg (by omega), Int.tmod_eq_emod_of_nonneg (by omega)]
  exact emod_ne (by omega) (by omega)

/-! ## §4. One step. -/

/-- A step outside the buffer: it leaves the cells and the two histories, moves one
thread from `x` to `y`, and returns at most what `x` carried. -/
theorem Contents.frame {s : Sbuf} {f r i : ℕ} {x : Pc} (y : Pc) (hc : Contents s f r)
    (h : s.threads[i]? = some x) (hstoring : y.storing = 0) (hloading : y.loading = 0)
    (hcarried : y.carried = none ∨ y.carried = x.carried) (mutex slots items : ℕ)
    (returned : List (ℕ × ℤ))
    (hreturned : ∀ p ∈ returned, p ∈ s.returned ∨ x.carried = some p) :
    Contents { s with
      sp := { s.sp with mutex := mutex, slots := slots, items := items }
      threads := s.threads.set i y
      returned := returned } f r := by
  constructor
  · exact hc.cell
  · intro j item hj
    rcases getElem?_set_cases hj with ⟨_, h'⟩ | ⟨_, h'⟩
    · subst h'
      exact absurd hstoring (by simp [Pc.storing])
    · exact hc.storing j item h'
  · intro j k hj
    rcases getElem?_set_cases hj with ⟨_, h'⟩ | ⟨_, h'⟩
    · subst h'
      exact absurd hloading (by simp [Pc.loading])
    · exact hc.loading j k h'
  · exact hc.loaded
  · exact hc.pending
  · intro j z hj k v hz
    rcases getElem?_set_cases hj with ⟨_, h'⟩ | ⟨_, h'⟩
    · subst h'
      rcases hcarried with hnone | heq
      · rw [hnone] at hz
        exact absurd hz (by simp)
      · rw [heq] at hz
        exact hc.held i x h k v hz
    · exact hc.held j z h' k v hz
  · intro k v hkv
    rcases hreturned (k, v) hkv with hold | hx
    · exact hc.returned k v hold
    · exact hc.held i x h k v hx

/-- With the mutex free no thread stores or loads. -/
theorem Account.no_holder {s : Sbuf} {f r : ℕ} (hacc : Account s f r) (hp : 0 < s.sp.mutex)
    {i : ℕ} {x : Pc} (h : s.threads[i]? = some x) : x.locked = 0 := by
  have h1 := le_weight Pc.locked h
  have h2 := hacc.mutex_eq
  omega

theorem storing_le_locked (x : Pc) : x.storing ≤ x.locked := by
  cases x <;> simp [Pc.storing, Pc.locked]

theorem loading_le_locked (x : Pc) : x.loading ≤ x.locked := by
  cases x <;> simp [Pc.loading, Pc.locked]

/-- An insertion takes the mutex: it becomes the last entry of the history. -/
theorem Contents.insLock {s : Sbuf} {f r i : ℕ} {item : ℤ} (hacc : Account s f r)
    (hc : Contents s f r) (hp : 0 < s.sp.mutex) :
    Contents { s with
      sp := { s.sp with mutex := s.sp.mutex - 1 }
      threads := s.threads.set i (.insStore item)
      inserted := s.inserted ++ [item] } f r := by
  -- the mutex is free, so no insertion is between lock and store
  have hlen : s.inserted.length = r := by
    have h1 := hacc.inserted_eq
    have h2 := weight_mono storing_le_locked s.threads
    have h3 := hacc.mutex_eq
    omega
  have hfree : ∀ (j : ℕ) (x : Pc), s.threads[j]? = some x → x.locked = 0 :=
    fun j x h => hacc.no_holder hp h
  constructor
  · intro j hlo hhi
    obtain ⟨v, hv, hb⟩ := hc.cell j hlo hhi
    refine ⟨v, ?_, hb⟩
    show (s.inserted ++ [item])[j]? = some v
    rw [List.getElem?_append_left (by omega)]
    exact hv
  · intro j it h
    rcases getElem?_set_cases h with ⟨_, h⟩ | ⟨_, h⟩
    · injection h with h
      subst h
      show (s.inserted ++ [it])[r]? = some it
      rw [List.getElem?_append_right (by omega), hlen]
      simp
    · -- another thread at the store would hold the mutex
      have := hfree j _ h
      simp [Pc.locked] at this
  · intro j k h
    rcases getElem?_set_cases h with ⟨_, h⟩ | ⟨_, h⟩
    · exact absurd h (by simp)
    · exact hc.loading j k h
  · intro j hj
    obtain ⟨v, h1, h2⟩ := hc.loaded j hj
    refine ⟨v, h1, ?_⟩
    show (s.inserted ++ [item])[j]? = some v
    rw [List.getElem?_append_left]
    · exact h2
    · exact (List.getElem?_eq_some_iff.mp h2).1
  · exact hc.pending
  · intro j x hj k v hx
    rcases getElem?_set_cases hj with ⟨_, h'⟩ | ⟨_, h'⟩
    · subst h'
      exact absurd hx (by simp [Pc.carried])
    · exact hc.held j x h' k v hx
  · exact hc.returned

/-- A store fills the next cell, which no item in the buffer uses. -/
theorem Contents.store {s : Sbuf} {f r i : ℕ} {item : ℤ} (hacc : Account s f r)
    (hc : Contents s f r) (h : s.threads[i]? = some (.insStore item)) (hr : r + 1 < 2 ^ 31) :
    Contents { s with
      sp := { s.sp with
        rear := incr s.sp.rear
        buf := Function.update s.sp.buf (s.sp.slot s.sp.rear) (some item) }
      threads := s.threads.set i .insUnlock } f (r + 1) := by
  have hslot : s.sp.slot s.sp.rear = ((r + 1 : ℕ) : ℤ).tmod s.sp.n := by
    unfold SbufT.slot
    rw [hacc.rear_eq, incr_of_lt hr]
  -- this thread owes a slot: there is a free cell
  have hroom : (r : ℤ) < f + s.sp.n := by
    have h1 := le_weight Pc.owesSlot h
    have h2 : Pc.owesSlot (.insStore item) = 1 := rfl
    have h3 := hacc.slots_eq
    omega
  have hold : ∀ (j : ℕ) (x : Pc), (s.threads.set i .insUnlock)[j]? = some x →
      x ≠ .insUnlock → j ≠ i ∧ s.threads[j]? = some x := by
    intro j x hx hne
    rcases getElem?_set_cases hx with ⟨_, h'⟩ | h'
    · exact absurd h' hne
    · exact h'
  constructor
  · intro j hlo hhi
    rw [show (Sbuf.sp { s with
      sp := { s.sp with
        rear := incr s.sp.rear
        buf := Function.update s.sp.buf (s.sp.slot s.sp.rear) (some item) }
      threads := s.threads.set i .insUnlock }).buf
        = Function.update s.sp.buf (((r + 1 : ℕ) : ℤ).tmod s.sp.n) (some item) by rw [← hslot]]
    -- an older cell, or the one just written
    rcases Nat.lt_or_ge j r with hj | hj
    · obtain ⟨v, hv, hb⟩ := hc.cell j hlo hj
      refine ⟨v, hv, ?_⟩
      rw [Function.update_of_ne (slot_ne hj (by omega))]
      exact hb
    · obtain rfl : j = r := by omega
      exact ⟨item, hc.storing i item h, by rw [Function.update_self]⟩
  · intro j it hj
    -- nobody else holds the mutex
    obtain ⟨hne, hj'⟩ := hold j _ hj (by simp)
    exact absurd (hacc.locked_unique hj' h rfl rfl) hne
  · intro j k hj
    exact hc.loading j k (hold j _ hj (by simp)).2
  · exact hc.loaded
  · exact hc.pending
  · intro j x hj k v hx
    have hne : x ≠ .insUnlock := by
      intro he
      subst he
      exact absurd hx (by simp [Pc.carried])
    exact hc.held j x (hold j x hj hne).2 k v hx
  · exact hc.returned

/-- A removal takes the mutex: it becomes the last entry of the history. -/
theorem Contents.remLock {s : Sbuf} {f r i : ℕ} (hacc : Account s f r)
    (hc : Contents s f r) (hp : 0 < s.sp.mutex) :
    Contents { s with
      sp := { s.sp with mutex := s.sp.mutex - 1 }
      threads := s.threads.set i (.remLoad s.removals.length)
      removals := s.removals ++ [none] } f r := by
  -- the mutex is free, so no removal is between lock and load
  have hlen : s.removals.length = f := by
    have h1 := hacc.removals_eq
    have h2 := weight_mono loading_le_locked s.threads
    have h3 := hacc.mutex_eq
    omega
  have hleft : ∀ (j : ℕ) (v : Option ℤ), s.removals[j]? = some v →
      (s.removals ++ [none])[j]? = some v := by
    intro j v hv
    rw [List.getElem?_append_left]
    · exact hv
    · exact (List.getElem?_eq_some_iff.mp hv).1
  constructor
  · exact hc.cell
  · intro j it h
    rcases getElem?_set_cases h with ⟨_, h⟩ | ⟨_, h⟩
    · exact absurd h (by simp)
    · exact hc.storing j it h
  · intro j k h
    rcases getElem?_set_cases h with ⟨_, h⟩ | ⟨_, h⟩
    · injection h with h
      omega
    · exact hc.loading j k h
  · intro j hj
    obtain ⟨v, h1, h2⟩ := hc.loaded j hj
    exact ⟨v, hleft j _ h1, h2⟩
  · intro j hlo hhi
    simp only [List.length_append, List.length_cons, List.length_nil] at hhi
    obtain rfl : j = s.removals.length := by omega
    simp
  · intro j x hj k v hx
    rcases getElem?_set_cases hj with ⟨_, h'⟩ | ⟨_, h'⟩
    · subst h'
      exact absurd hx (by simp [Pc.carried])
    · exact hleft k _ (hc.held j x h' k v hx)
  · intro k v h
    exact hleft k _ (hc.returned k v h)

/-- The cell a removal is about to load holds the item of its place. -/
theorem Contents.next_cell {s : Sbuf} {f r i k : ℕ} (hacc : Account s f r)
    (hc : Contents s f r) (h : s.threads[i]? = some (.remLoad k)) (hr : r < 2 ^ 31) :
    ∃ v, s.inserted[f]? = some v ∧ s.sp.buf (s.sp.slot s.sp.front) = some v := by
  have hfr := hacc.tokens.load_lt h
  unfold SbufT.slot
  rw [hacc.front_eq, incr_of_lt (by omega)]
  exact hc.cell f (Nat.le_refl f) hfr

/-- A load takes the item of its place. -/
theorem Contents.load {s : Sbuf} {f r i k : ℕ} (hacc : Account s f r)
    (hc : Contents s f r) (h : s.threads[i]? = some (.remLoad k)) (hr : r < 2 ^ 31) :
    Contents { s with
      sp := { s.sp with front := incr s.sp.front }
      threads := s.threads.set i
        (.remUnlock k ((s.sp.buf (s.sp.slot s.sp.front)).getD 0))
      removals := s.removals.set k (some ((s.sp.buf (s.sp.slot s.sp.front)).getD 0)) }
      (f + 1) r := by
  obtain ⟨v, hins, hcell⟩ := hc.next_cell hacc h hr
  obtain rfl : k = f := hc.loading i k h
  rw [hcell, Option.getD_some]
  have hklen : k < s.removals.length := by
    have h1 := le_weight Pc.loading h
    have h2 : Pc.loading (.remLoad k) = 1 := rfl
    have h3 := hacc.removals_eq
    omega
  have hnone := hc.pending k (Nat.le_refl k) hklen
  -- the entries that are already filled are not the one filled now
  have hother : ∀ (j : ℕ) (x : ℤ), s.removals[j]? = some (some x) →
      (s.removals.set k (some v))[j]? = some (some x) := by
    intro j x hj
    have hne : k ≠ j := by
      intro he
      subst he
      rw [hnone] at hj
      simp at hj
    rw [List.getElem?_set_ne hne]
    exact hj
  constructor
  · intro j hlo hhi
    exact hc.cell j (by omega) hhi
  · intro j it hj
    rcases getElem?_set_cases hj with ⟨_, h'⟩ | ⟨_, h'⟩
    · exact absurd h' (by simp)
    · exact hc.storing j it h'
  · intro j k' hj
    rcases getElem?_set_cases hj with ⟨_, h'⟩ | ⟨hne, h'⟩
    · exact absurd h' (by simp)
    · exact absurd (hacc.locked_unique h' h rfl rfl) hne
  · intro j hj
    -- an earlier removal, or this one
    rcases Nat.lt_or_ge j k with hlt | hge
    · obtain ⟨x, h1, h2⟩ := hc.loaded j hlt
      exact ⟨x, hother j x h1, h2⟩
    · obtain rfl : j = k := by omega
      exact ⟨v, List.getElem?_set_self hklen, hins⟩
  · intro j hlo hhi
    rw [List.length_set] at hhi
    show (s.removals.set k (some v))[j]? = some none
    rw [List.getElem?_set_ne (by omega)]
    exact hc.pending j (by omega) hhi
  · intro j z hj k' x hx
    rcases getElem?_set_cases hj with ⟨_, h'⟩ | ⟨_, h'⟩
    · subst h'
      obtain ⟨rfl, rfl⟩ : k = k' ∧ v = x := by simpa [Pc.carried] using hx
      exact List.getElem?_set_self hklen
    · exact hother k' x (hc.held j z h' k' x hx)
  · intro k' x hx
    exact hother k' x (hc.returned k' x hx)

/-- The invariant: an account and contents, while fewer than `2^31 - 1` insertions
have taken the mutex. -/
def SbufInv (n : ℤ) (s : Sbuf) : Prop :=
  s.sp.n = n ∧ (s.inserted.length < 2 ^ 31 - 1 → ∃ f r, Account s f r ∧ Contents s f r)

/-- A step of a semaphore: it moves one token between the semaphore and the thread. -/
theorem SbufInv.semStep {n : ℤ} {s : Sbuf} (hinv : SbufInv n s) {i : ℕ} {x : Pc} (y : Pc)
    (h : s.threads[i]? = some x) (mutex slots items : ℕ) (returned : List (ℕ × ℤ))
    (hitems : items + y.owesItem = s.sp.items + x.owesItem)
    (hslots : slots + y.owesSlot = s.sp.slots + x.owesSlot)
    (hmutex : mutex + y.locked = s.sp.mutex + x.locked)
    (hstoring : x.storing = 0 ∧ y.storing = 0) (hloading : x.loading = 0 ∧ y.loading = 0)
    (hcarried : y.carried = none ∨ y.carried = x.carried)
    (hreturned : ∀ p ∈ returned, p ∈ s.returned ∨ x.carried = some p) :
    SbufInv n { s with
      sp := { s.sp with mutex := mutex, slots := slots, items := items }
      threads := s.threads.set i y
      returned := returned } := by
  refine ⟨hinv.1, fun hb => ?_⟩
  obtain ⟨f, r, hacc, hc⟩ := hinv.2 hb
  have htokens := hacc.tokens.semStep y h mutex slots items returned hitems hslots hmutex
    hstoring hloading
  exact ⟨f, r, htokens.account hacc.front_eq hacc.rear_eq,
    hc.frame y h hstoring.2 hloading.2 hcarried _ _ _ _ hreturned⟩

/-- **One step keeps the invariant.** -/
theorem SbufInv.step {n : ℤ} {s s' : Sbuf} (hinv : SbufInv n s) (hstep : SbufStep s s') :
    SbufInv n s' := by
  have hsame : ∀ {x : Pc}, ∀ p ∈ s.returned, p ∈ s.returned ∨ x.carried = some p :=
    fun p hp => Or.inl hp
  cases hstep with
  | callInsert i item h =>
      exact hinv.semStep (.insSlots item) h _ _ _ _ rfl rfl rfl ⟨rfl, rfl⟩ ⟨rfl, rfl⟩
        (Or.inl rfl) hsame
  | pSlots i item h hp =>
      exact hinv.semStep (.insMutex item) h _ (s.sp.slots - 1) _ _ rfl
        (by show s.sp.slots - 1 + 1 = s.sp.slots + 0; omega) rfl ⟨rfl, rfl⟩ ⟨rfl, rfl⟩
        (Or.inl rfl) hsame
  | insLock i item h hp =>
      refine ⟨hinv.1, fun hb => ?_⟩
      have hlen : (s.inserted ++ [item]).length = s.inserted.length + 1 := by simp
      have hb' : (s.inserted ++ [item]).length < 2 ^ 31 - 1 := hb
      -- the bound on the history held before this insertion too
      obtain ⟨f, r, hacc, hc⟩ := hinv.2 (by omega)
      exact ⟨f, r, (hacc.tokens.insLock h hp).account hacc.front_eq hacc.rear_eq,
        hc.insLock hacc hp⟩
  | store i item h =>
      refine ⟨hinv.1, fun hb => ?_⟩
      obtain ⟨f, r, hacc, hc⟩ := hinv.2 hb
      have hb' : s.inserted.length < 2 ^ 31 - 1 := hb
      -- `++rear` does not wrap: `rear` counts the insertions
      have hlt : r + 1 < 2 ^ 31 := by
        have h1 := hacc.inserted_eq
        omega
      refine ⟨f, r + 1, (hacc.tokens.store h _ _).account hacc.front_eq ?_,
        hc.store hacc h hlt⟩
      show incr s.sp.rear = ((r + 1 : ℕ) : ℤ)
      rw [hacc.rear_eq, incr_of_lt hlt]
  | insUnlock i h =>
      exact hinv.semStep .insItems h (s.sp.mutex + 1) _ _ _ rfl rfl rfl ⟨rfl, rfl⟩ ⟨rfl, rfl⟩
        (Or.inl rfl) hsame
  | vItems i h =>
      exact hinv.semStep .idle h _ _ (s.sp.items + 1) _ rfl rfl rfl ⟨rfl, rfl⟩ ⟨rfl, rfl⟩
        (Or.inl rfl) hsame
  | callRemove i h =>
      exact hinv.semStep .remItems h _ _ _ _ rfl rfl rfl ⟨rfl, rfl⟩ ⟨rfl, rfl⟩
        (Or.inl rfl) hsame
  | pItems i h hp =>
      exact hinv.semStep .remMutex h _ _ (s.sp.items - 1) _
        (by show s.sp.items - 1 + 1 = s.sp.items + 0; omega) rfl rfl ⟨rfl, rfl⟩ ⟨rfl, rfl⟩
        (Or.inl rfl) hsame
  | remLock i h hp =>
      refine ⟨hinv.1, fun hb => ?_⟩
      obtain ⟨f, r, hacc, hc⟩ := hinv.2 hb
      exact ⟨f, r, (hacc.tokens.remLock h hp).account hacc.front_eq hacc.rear_eq,
        hc.remLock hacc hp⟩
  | load i k h =>
      refine ⟨hinv.1, fun hb => ?_⟩
      obtain ⟨f, r, hacc, hc⟩ := hinv.2 hb
      have hb' : s.inserted.length < 2 ^ 31 - 1 := hb
      -- nor does `++front`, which stays behind `rear`
      have hlt : r < 2 ^ 31 := by
        have := hacc.inserted_eq
        omega
      have hfr := hacc.tokens.load_lt h
      refine ⟨f + 1, r, (hacc.tokens.load h _ _).account ?_ hacc.rear_eq, hc.load hacc h hlt⟩
      show incr s.sp.front = ((f + 1 : ℕ) : ℤ)
      rw [hacc.front_eq, incr_of_lt (by omega)]
  | remUnlock i k item h =>
      -- the loaded item stays with its thread
      exact hinv.semStep (.remSlots k item) h (s.sp.mutex + 1) _ _ _ rfl rfl rfl ⟨rfl, rfl⟩
        ⟨rfl, rfl⟩ (Or.inr rfl) hsame
  | vSlots i k item h =>
      refine hinv.semStep .idle h _ (s.sp.slots + 1) _ (s.returned ++ [(k, item)]) rfl rfl rfl
        ⟨rfl, rfl⟩ ⟨rfl, rfl⟩ (Or.inl rfl) ?_
      intro p hp
      rcases List.mem_append.mp hp with hp | hp
      · exact Or.inl hp
      · rw [List.mem_singleton.mp hp]
        exact Or.inr rfl

/-! ## §5. Whole runs. -/

theorem weight_idle (w : Pc → ℕ) (hw : w .idle = 0) {l : List Pc} (h : ∀ pc ∈ l, pc = .idle) :
    weight w l = 0 := by
  by_contra hne
  obtain ⟨i, x, hi, hx⟩ := exists_of_weight_pos w (l := l) (by omega)
  rw [h x (List.mem_of_getElem? hi), hw] at hx
  omega

/-- `sbuf_init` establishes the invariant. -/
theorem SbufInv.init {n : ℤ} (hn : 1 ≤ n) {s : Sbuf} (h : (sbufSystem n).init s) :
    SbufInv n s := by
  obtain ⟨threads, hidle, rfl⟩ := h
  refine ⟨rfl, fun _ => ⟨0, 0, ?_, ?_⟩⟩
  · have h1 := weight_idle Pc.owesItem rfl hidle
    have h2 := weight_idle Pc.owesSlot rfl hidle
    have h3 := weight_idle Pc.locked rfl hidle
    have h4 := weight_idle Pc.storing rfl hidle
    have h5 := weight_idle Pc.loading rfl hidle
    constructor <;> simp only [sbufInit, List.length_nil] <;> omega
  · -- nothing is stored, and every thread is outside
    have hout : ∀ (i : ℕ) (x : Pc), (sbufInit n threads).threads[i]? = some x → x = .idle :=
      fun i x hx => hidle x (List.mem_of_getElem? hx)
    constructor
    · intro j _ hj
      omega
    · intro i item hi
      exact absurd (hout i _ hi) (by simp)
    · intro i k hi
      exact absurd (hout i _ hi) (by simp)
    · intro j hj
      omega
    · intro j _ hj
      simp [sbufInit] at hj
    · intro i x hi k v hx
      rw [hout i x hi] at hx
      exact absurd hx (by simp [Pc.carried])
    · intro k v hkv
      simp [sbufInit] at hkv

theorem sbuf_invariant {n : ℤ} (hn : 1 ≤ n) {s : Sbuf} (h : (sbufSystem n).Reachable s) :
    SbufInv n s :=
  h.invariant (fun _ h0 => SbufInv.init hn h0) (fun _ _ _ hinv hstep => hinv.step hstep)

/-- At most one removal has taken the mutex and not loaded yet. -/
theorem Account.removals_le {s : Sbuf} {f r : ℕ} (hacc : Account s f r) :
    f ≤ s.removals.length ∧ s.removals.length ≤ f + 1 := by
  -- a removal that has not loaded holds the mutex
  have h1 := hacc.removals_eq
  have h2 := weight_mono loading_le_locked s.threads
  have h3 := hacc.mutex_eq
  omega

/-- The loads so far took the first `f` items, in order. -/
theorem Contents.take_removals {s : Sbuf} {f r : ℕ} (hc : Contents s f r) :
    s.removals.take f = (s.inserted.take f).map some := by
  apply List.ext_getElem?
  intro j
  rcases Nat.lt_or_ge j f with hj | hj
  · obtain ⟨v, h1, h2⟩ := hc.loaded j hj
    rw [List.getElem?_take_of_lt hj, h1, List.getElem?_map, List.getElem?_take_of_lt hj, h2]
    rfl
  · rw [List.getElem?_map, List.getElem?_take_eq_none hj, List.getElem?_take_eq_none hj]
    rfl

/-- **The bounded buffer is a FIFO queue.**  In every reachable state, with fewer than
`2^31 - 1` insertions so far:

  • the removals, in the order they took the mutex, read a prefix of the items, in the
    order their insertions took it; only a removal that still holds the mutex (the last
    one) may not have read yet,
  • what `sbuf_remove` returned is what the removal of that place read,
  • `0 ≤ rear - front ≤ n`,
  • a removal about to read finds a cell that a producer has written. -/
theorem sbuf_fifo (n : ℤ) (hn : 1 ≤ n) (s : Sbuf) (hs : (sbufSystem n).Reachable s)
    (hfew : s.inserted.length < 2 ^ 31 - 1) :
    (∃ taken : List ℤ, taken <+: s.inserted ∧
      (s.removals = taken.map some ∨
        s.removals = taken.map some ++ [none] ∧
          ∃ i : ℕ, s.threads[i]? = some (.remLoad taken.length))) ∧
    (∀ p ∈ s.returned, s.removals[p.1]? = some (some p.2)) ∧
    (0 ≤ s.sp.rear - s.sp.front ∧ s.sp.rear - s.sp.front ≤ n) ∧
    (∀ i k : ℕ, s.threads[i]? = some (.remLoad k) →
      ∃ v, s.sp.buf (s.sp.slot s.sp.front) = some v ∧ s.inserted[k]? = some v) := by
  obtain ⟨hsize, hinv⟩ := sbuf_invariant hn hs
  obtain ⟨f, r, hacc, hc⟩ := hinv hfew
  have hle := hacc.removals_le
  refine ⟨⟨s.inserted.take f, List.take_prefix f _, ?_⟩, ?_, ?_, ?_⟩
  · -- either every removal has read, or the last one holds the mutex
    rcases Nat.lt_or_ge f s.removals.length with hlt | hge
    · right
      have hf : (s.inserted.take f).length = f := by
        have h1 := congrArg List.length hc.take_removals
        rw [List.length_map, List.length_take_of_le hle.1] at h1
        exact h1.symm
      constructor
      · rw [← hc.take_removals]
        apply List.ext_getElem?
        intro j
        -- entry by entry: the items read, then the one pending
        rcases Nat.lt_trichotomy j f with hj | hj | hj
        · rw [List.getElem?_append_left (by rw [List.length_take_of_le hle.1]; exact hj),
            List.getElem?_take_of_lt hj]
        · subst hj
          rw [hc.pending j (Nat.le_refl j) hlt,
            List.getElem?_append_right (by rw [List.length_take_of_le hle.1]),
            List.length_take_of_le hle.1, Nat.sub_self]
          rfl
        · rw [List.getElem?_eq_none (by omega),
            List.getElem?_eq_none (by simp only [List.length_append,
              List.length_take_of_le hle.1, List.length_singleton]; omega)]
      · -- the pending removal is the thread at the load
        obtain ⟨i, x, hi, hx⟩ := exists_of_weight_pos Pc.loading (l := s.threads)
          (by have := hacc.removals_eq; omega)
        cases x with
        | remLoad k =>
            refine ⟨i, ?_⟩
            rw [hf, hi, hc.loading i k hi]
        | _ => exact absurd hx (by simp [Pc.loading])
    · left
      rw [← hc.take_removals, List.take_of_length_le hge]
  · intro p hp
    exact hc.returned p.1 p.2 hp
  · have h1 := hacc.items_eq
    have h2 := hacc.slots_eq
    -- the account bounds the distance from both sides
    rw [hacc.rear_eq, hacc.front_eq, ← hsize]
    omega
  · intro i k hi
    obtain ⟨v, hv, hb⟩ := hc.next_cell hacc hi (by have := hacc.inserted_eq; omega)
    refine ⟨v, hb, ?_⟩
    rw [hc.loading i k hi]
    exact hv

/-- Two producers that are inside `sbuf_insert` at once; the first item has been removed, and
a second consumer is about to read the other one. -/
theorem sbuf_fifo_twoItems :
    ∃ s, (sbufSystem 2).Reachable s ∧ s.threads = [.remLoad 1, .idle, .idle] ∧
      s.inserted = [7, 8] ∧ s.removals = [some 7, none] ∧ s.returned = [(0, 7)] ∧
      ∃ v, s.sp.buf (s.sp.slot s.sp.front) = some v ∧ s.inserted[1]? = some v := by
  have hinit : (sbufSystem 2).Reachable (sbufInit 2 [.idle, .idle, .idle]) :=
    System.Reachable.of_init ⟨[.idle, .idle, .idle], by simp, rfl⟩
  -- the producer of `8` has its slot first, but comes second to the mutex
  have hslots := (((hinit.tail (SbufStep.callInsert 1 8 rfl)).tail
    (SbufStep.pSlots 1 8 rfl (by decide))).tail (SbufStep.callInsert 0 7 rfl)).tail
    (SbufStep.pSlots 0 7 rfl (by decide))
  have hseven := (((hslots.tail (SbufStep.insLock 0 7 rfl Nat.one_pos)).tail
    (SbufStep.store 0 7 rfl)).tail (SbufStep.insUnlock 0 rfl)).tail (SbufStep.vItems 0 rfl)
  have height := (((hseven.tail (SbufStep.insLock 1 8 rfl Nat.one_pos)).tail
    (SbufStep.store 1 8 rfl)).tail (SbufStep.insUnlock 1 rfl)).tail (SbufStep.vItems 1 rfl)
  have hremoved := (((((height.tail (SbufStep.callRemove 2 rfl)).tail
    (SbufStep.pItems 2 rfl (by decide))).tail (SbufStep.remLock 2 rfl Nat.one_pos)).tail
    (SbufStep.load 2 0 rfl)).tail (SbufStep.remUnlock 2 0 7 rfl)).tail
    (SbufStep.vSlots 2 0 7 rfl)
  have hloading := ((hremoved.tail (SbufStep.callRemove 0 rfl)).tail
    (SbufStep.pItems 0 rfl (by decide))).tail (SbufStep.remLock 0 rfl Nat.one_pos)
  exact ⟨_, hloading, rfl, rfl, rfl, rfl,
    (sbuf_fifo 2 (by decide) _ hloading (by decide)).2.2.2 0 1 rfl⟩

end ComputerScience.Sync
