/-
  ComputerScience.Kvraft.MakePartition
  ────────────────────────────────────
  **THE GROUPS OF A PARTITION** (`make_partition` in `kvraft/config.go`).

  `make_partition` allots the servers to a majority `p1` and a minority `p2` with the
  leader at its end.  Both slices are made in their full size, filled by one running index,
  and the last slot of `p2` is set to the leader whatever was filled before it.

  Main results:
    • `fillGroups_spec` — seen as one list, the two slices hold the other servers in order,
      then the slots that were never filled, then the leader,
    • `makePartition_partitions_iff` — this is a partition exactly for an odd number of
      servers.
-/
import ComputerScience.Lib.Loop
import Mathlib.Data.List.Range
import Mathlib.Data.List.Perm.Basic

namespace ComputerScience.Kvraft

open ComputerScience.Lib

/-! ## §1. The code. -/

/-- What `GetState` says of each server, `none` for a nil entry of `cfg.kvservers`. -/
abbrev Servers := List (Option Bool)

/-- The loop of `Leader` from server `i` on. -/
def leaderFrom : ℕ → Servers → Option (Bool × ℕ)
  | _, [] => some (false, 0)
  | _, none :: _ => none
  | i, some isLeader :: rest => if isLeader then some (true, i) else leaderFrom (i + 1) rest

/-- `Leader`: whether there is a leader, and the first one. -/
def leader (kvservers : Servers) : Option (Bool × ℕ) := leaderFrom 0 kvservers

/-- `p[j] = i` -/
def store (p : List ℕ) (j i : ℕ) : Option (List ℕ) :=
  if j < p.length then some (p.set j i) else none

/-- The variables of the loop of `make_partition`. -/
structure Groups where
  p1 : List ℕ
  p2 : List ℕ
  j : ℕ
  deriving DecidableEq, Repr

/-- The body of the loop: server `i` goes to the next slot, unless it is the leader. -/
def Groups.add (l i : ℕ) (g : Groups) : Option Groups :=
  if i ≠ l then
    if g.j < g.p1.length then
      (store g.p1 g.j i).bind fun p1 => some ⟨p1, g.p2, g.j + 1⟩
    else
      (store g.p2 (g.j - g.p1.length) i).bind fun p2 => some ⟨g.p1, p2, g.j + 1⟩
  else some g

/-- `make_partition` for `n` servers after `Leader` has returned `l`. -/
def fillGroups (n l : ℕ) : Option (List ℕ × List ℕ) :=
  (forLoop 0 n 1 (Groups.add l)
      ⟨List.replicate (n / 2 + 1) 0, List.replicate (n / 2) 0, 0⟩).bind fun g =>
    (store g.p2 (g.p2.length - 1) l).bind fun p2 => some (g.p1, p2)

/-- Partition servers into 2 groups and put current leader in minority. -/
def makePartition (kvservers : Servers) : Option (List ℕ × List ℕ) :=
  (leader kvservers).bind fun found => fillGroups kvservers.length found.2

/-! ## §2. The two slices as one list. -/

/-- The servers before `i` that are not the leader. -/
def others (l i : ℕ) : List ℕ := (List.range i).filter (· != l)

theorem others_succ (l i : ℕ) :
    others l (i + 1) = if i ≠ l then others l i ++ [i] else others l i := by
  unfold others
  rw [List.range_succ, List.filter_append]
  by_cases h : i = l <;> simp [h]

theorem length_others_le (l i : ℕ) : (others l i).length ≤ i := by
  unfold others
  exact (List.length_filter_le _ _).trans (by simp)

/-- All servers are the others and the leader. -/
theorem others_perm {l n : ℕ} (hl : l < n) : (others l n ++ [l]).Perm (List.range n) := by
  refine (List.perm_append_singleton l _).trans ?_
  unfold others
  rw [← List.nodup_range.erase_eq_filter l]
  exact (List.perm_cons_erase (List.mem_range.mpr hl)).symm

theorem length_others {l n : ℕ} (hl : l < n) : (others l n).length + 1 = n := by
  simpa using (others_perm hl).length_eq

/-- The invariant before turn `i`: the slots so far hold the other servers in order, and
the rest is as `make` has left it. -/
structure Filled (n l i : ℕ) (g : Groups) : Prop where
  len1 : g.p1.length = n / 2 + 1
  len2 : g.p2.length = n / 2
  index : g.j = (others l i).length
  slots : g.p1 ++ g.p2 = others l i ++ List.replicate (2 * (n / 2) + 1 - (others l i).length) 0

/-- The first free slot is filled. -/
theorem set_first_free (d : List ℕ) {k : ℕ} (hk : 0 < k) (i : ℕ) :
    (d ++ List.replicate k 0).set d.length i = d ++ [i] ++ List.replicate (k - 1) 0 := by
  obtain ⟨k, rfl⟩ := Nat.exists_eq_succ_of_ne_zero hk.ne'
  rw [List.set_append_right _ _ (Nat.le_refl _), Nat.sub_self, List.replicate_succ]
  simp

/-- **One turn** of the loop stays inside of the slices. -/
theorem Filled.add {n l i : ℕ} {g : Groups} (h : Filled n l i g) (hi : i < n) :
    ∃ g', g.add l i = some g' ∧ Filled n l (i + 1) g' := by
  by_cases hil : i = l
  · refine ⟨g, ?_, h.len1, h.len2, ?_, ?_⟩
    · unfold Groups.add
      rw [if_neg (not_not.mpr hil)]
    · rw [others_succ, if_neg (not_not.mpr hil)]
      exact h.index
    · rw [others_succ, if_neg (not_not.mpr hil)]
      exact h.slots
  · have hfree : (others l i).length < 2 * (n / 2) + 1 := by
      have := length_others_le l i
      omega
    have hset := set_first_free (others l i) (Nat.sub_pos_of_lt hfree) i
    rw [← h.slots, ← h.index, List.set_append] at hset
    have hindex : g.j + 1 = (others l (i + 1)).length := by
      rw [others_succ, if_pos hil, h.index, List.length_append, List.length_singleton]
    have hrest : 2 * (n / 2) + 1 - (others l i).length - 1 =
        2 * (n / 2) + 1 - (others l (i + 1)).length := by
      rw [← hindex, h.index]
      omega
    have hslots : others l i ++ [i] ++ List.replicate (2 * (n / 2) + 1 - g.j - 1) 0 =
        others l (i + 1) ++ List.replicate (2 * (n / 2) + 1 - (others l (i + 1)).length) 0 := by
      rw [h.index, hrest, others_succ, if_pos hil]
    unfold Groups.add store
    rw [if_pos hil]
    -- the slot lies in `p1` or, counted from its end, in `p2`
    by_cases hj : g.j < g.p1.length
    · rw [if_pos hj] at hset ⊢
      refine ⟨⟨g.p1.set g.j i, g.p2, g.j + 1⟩, by rw [if_pos hj]; rfl, ?_, h.len2, hindex, ?_⟩
      · rw [List.length_set]
        exact h.len1
      · rw [hset]
        exact hslots
    · rw [if_neg hj] at hset ⊢
      have hj' : g.j - g.p1.length < g.p2.length := by
        have := h.index
        rw [h.len1] at hj ⊢
        rw [h.len2]
        omega
      rw [if_pos hj']
      refine ⟨⟨g.p1, g.p2.set (g.j - g.p1.length) i, g.j + 1⟩, rfl, h.len1, ?_, hindex, ?_⟩
      · rw [List.length_set]
        exact h.len2
      · rw [hset]
        exact hslots

/-- What is left of the free slots before the leader's. -/
theorem set_last (d : List ℕ) {k : ℕ} (hk : 0 < k) (l : ℕ) :
    (d ++ List.replicate k 0).set (d.length + k - 1) l =
      d ++ List.replicate (k - 1) 0 ++ [l] := by
  obtain ⟨k, rfl⟩ := Nat.exists_eq_succ_of_ne_zero hk.ne'
  rw [List.replicate_succ', ← List.append_assoc, List.set_append_right _ _ (by simp)]
  simp

/-- **The two slices**, one after the other: the other servers, for an even number of
servers one slot that was not filled, and the leader.  No index is out of range. -/
theorem fillGroups_spec {n l : ℕ} (hn : 2 ≤ n) (hl : l < n) :
    ∃ p1 p2, fillGroups n l = some (p1, p2) ∧ p1.length = n / 2 + 1 ∧ p2.length = n / 2 ∧
      p1 ++ p2 = others l n ++ List.replicate (1 - n % 2) 0 ++ [l] := by
  have hinit : Filled n l 0 ⟨List.replicate (n / 2 + 1) 0, List.replicate (n / 2) 0, 0⟩ := by
    refine ⟨List.length_replicate, List.length_replicate, rfl, ?_⟩
    show List.replicate (n / 2 + 1) 0 ++ List.replicate (n / 2) 0 =
      List.replicate (2 * (n / 2) + 1) 0
    rw [← List.replicate_add]
    congr 1
    omega
  obtain ⟨g, hloop, hg⟩ := forLoop_rule_one (Filled n l) (Nat.zero_le n) hinit
    (fun i g _ hi hg => hg.add hi)
  have hlast : g.p2.length - 1 < g.p2.length := by
    have := hg.len2
    omega
  refine ⟨g.p1, g.p2.set (g.p2.length - 1) l, ?_, hg.len1, by rw [List.length_set, hg.len2], ?_⟩
  · unfold fillGroups store
    rw [hloop, Option.bind_some, if_pos hlast]
    rfl
  · have hothers := length_others hl
    have hslots := set_last (others l n) (k := 2 * (n / 2) + 1 - (others l n).length)
      (by omega) l
    have hpos : (others l n).length + (2 * (n / 2) + 1 - (others l n).length) - 1 =
        g.p1.length + (g.p2.length - 1) := by
      rw [hg.len1, hg.len2]
      omega
    rw [← hg.slots, hpos, List.set_append_right _ _ (Nat.le_add_right _ _),
      Nat.add_sub_cancel_left] at hslots
    rw [hslots]
    congr 3
    omega

/-! ## §3. When it is a partition. -/

/-- What `make_partition` is for: every server is in one of the groups, once; `p1` is a
majority without the leader `l`, and the leader is the last of `p2`. -/
structure Partitions (n l : ℕ) (p1 p2 : List ℕ) : Prop where
  all : (p1 ++ p2).Perm (List.range n)
  majority : n < 2 * p1.length
  leader_not_mem : l ∉ p1
  leader_last : p2.getLast? = some l

theorem fillGroups_partitions_iff {n l : ℕ} (hn : 2 ≤ n) (hl : l < n) :
    (∃ p1 p2, fillGroups n l = some (p1, p2) ∧ Partitions n l p1 p2) ↔ n % 2 = 1 := by
  obtain ⟨p1, p2, hfill, hlen1, hlen2, hslots⟩ := fillGroups_spec hn hl
  constructor
  · rintro ⟨q1, q2, hfill', hpart⟩
    rw [hfill] at hfill'
    cases hfill'
    -- one slot too many for an even number of servers
    have hlen := hpart.all.length_eq
    rw [List.length_append, List.length_range, hlen1, hlen2] at hlen
    omega
  · intro hodd
    rw [hodd, Nat.sub_self, List.replicate_zero, List.append_nil] at hslots
    have hothers := length_others hl
    refine ⟨p1, p2, hfill, ?_, ?_, ?_, ?_⟩
    · rw [hslots]
      exact others_perm hl
    · omega
    · -- `p1` is a beginning of the list of the other servers
      have hp1 : p1 <+: others l n := by
        refine List.prefix_of_prefix_length_le (List.prefix_append p1 p2) ?_ (by omega)
        rw [hslots]
        exact List.prefix_append _ _
      intro hmem
      have := hp1.subset hmem
      simp [others] at this
    · have hlast : (p1 ++ p2).getLast? = some l := by
        rw [hslots]
        exact List.getLast?_concat
      have hne : p2 ≠ [] := by
        intro hnil
        rw [hnil, List.length_nil] at hlen2
        omega
      rw [List.getLast?_append_of_ne_nil p1 hne] at hlast
      exact hlast

/-- **`make_partition` makes a partition exactly for an odd number of servers**, whichever
of them `Leader` finds. -/
theorem makePartition_partitions_iff {n l : ℕ} (hn : 2 ≤ n) (hl : l < n) {kvservers : Servers}
    (hlen : kvservers.length = n) {found : Bool} (hleader : leader kvservers = some (found, l)) :
    (∃ p1 p2, makePartition kvservers = some (p1, p2) ∧ Partitions n l p1 p2) ↔ n % 2 = 1 := by
  have hmake : makePartition kvservers = fillGroups n l := by
    unfold makePartition
    rw [hleader, Option.bind_some, hlen]
  rw [hmake]
  exact fillGroups_partitions_iff hn hl

/-- The five servers of the tests, of which server 2 leads. -/
theorem makePartition_partitions_iff_five :
    ∃ p1 p2, makePartition [some false, some false, some true, some false, some false] =
      some (p1, p2) ∧ Partitions 5 2 p1 p2 :=
  (makePartition_partitions_iff (by decide) (by decide) (by decide)
    (show leader _ = some (true, 2) by decide)).mpr rfl

/-- Four servers, of which server 1 leads: server 0 is in both groups. -/
theorem makePartition_doubles_server :
    leader [some false, some true, some false, some false] = some (true, 1) ∧
    ¬ ∃ p1 p2, makePartition [some false, some true, some false, some false] = some (p1, p2) ∧
      Partitions 4 1 p1 p2 := by
  refine ⟨by decide, ?_⟩
  rintro ⟨p1, p2, hmake, hpart⟩
  have hcode : makePartition [some false, some true, some false, some false] =
      some ([0, 2, 3], [0, 1]) := by decide
  rw [hcode] at hmake
  cases hmake
  have hlen := hpart.all.length_eq
  simp at hlen

end ComputerScience.Kvraft
