/-
  ComputerScience.Lib.Occurrences
  ───────────────────────────────
  **WORDS IN A CONCATENATION OF MARKED WORDS.**

  Each word begins with a mark that stands nowhere else in a word and ends with another such
  mark.  Then a word occurs in a concatenation of words only where it was put.

    • `Marked.occurs_iff` — the places where a word occurs,
    • `Marked.index_flatMap`, `Marked.lastIndex_eq_index_iff` — what a search from the left and
      from the right finds.
-/
import Mathlib.Data.List.Basic
import Mathlib.Data.List.Duplicate
import Mathlib.Data.List.NodupEquivFin
import Mathlib.Data.Int.Notation

namespace ComputerScience.Lib.Occurrences

variable {α ι : Type*}

/-! ## §1. Searching. -/

/-- The first offset at which `w` occurs in `v`, or `-1`. -/
def index [DecidableEq α] (v w : List α) : ℤ :=
  match (List.range (v.length + 1)).find? (fun o => w.isPrefixOf (v.drop o)) with
  | some o => o
  | none => -1

/-- The last offset up to `o` at which `w` occurs in `v`, or `-1`. -/
def lastIndexFrom [DecidableEq α] (v w : List α) : ℕ → ℤ
  | 0 => if w.isPrefixOf v then 0 else -1
  | o + 1 => if w.isPrefixOf (v.drop (o + 1)) then (o + 1 : ℕ) else lastIndexFrom v w o

/-- The last offset at which `w` occurs in `v`, or `-1`. -/
def lastIndex [DecidableEq α] (v w : List α) : ℤ := lastIndexFrom v w v.length

theorem lastIndexFrom_spec [DecidableEq α] {v w : List α} {n o : ℕ} (ho : o ≤ n)
    (hocc : w <+: v.drop o) :
    ∃ m ≤ n, lastIndexFrom v w n = (m : ℤ) ∧ w <+: v.drop m ∧
      ∀ o' ≤ n, w <+: v.drop o' → o' ≤ m := by
  induction n with
  | zero =>
      obtain rfl : o = 0 := Nat.le_zero.mp ho
      have hhead : w <+: v := by rwa [List.drop_zero] at hocc
      refine ⟨0, Nat.le_refl 0, ?_, hocc, fun o' ho' _ => ho'⟩
      rw [lastIndexFrom, if_pos (List.isPrefixOf_iff_prefix.mpr hhead)]
      rfl
  | succ n ih =>
      -- the search goes down: it ends here, or it is the search from `n`
      rw [lastIndexFrom]
      by_cases htop : w <+: v.drop (n + 1)
      · rw [if_pos (List.isPrefixOf_iff_prefix.mpr htop)]
        exact ⟨n + 1, Nat.le_refl _, rfl, htop, fun o' ho' _ => ho'⟩
      · rw [if_neg (fun h => htop (List.isPrefixOf_iff_prefix.mp h))]
        have hle : o ≤ n := by
          rcases Nat.lt_or_ge n o with hlt | hge
          · obtain rfl : o = n + 1 := by omega
            exact absurd hocc htop
          · exact hge
        obtain ⟨m, hm, heq, hat, hmax⟩ := ih hle
        refine ⟨m, Nat.le_succ_of_le hm, heq, hat, fun o' ho' hocc' => ?_⟩
        rcases Nat.lt_or_ge n o' with hlt | hge
        · obtain rfl : o' = n + 1 := by omega
          exact absurd hocc' htop
        · exact hmax o' hge hocc'

/-! ## §2. Marked words. -/

/-- Words between two marks. -/
structure Marked (code : ι → List α) (start stop : α) : Prop where
  form : ∀ e, ∃ body, code e = start :: (body ++ [stop]) ∧ start ∉ body ∧ stop ∉ body
  ne : start ≠ stop
  inj : Function.Injective code

/-- Where word `k` of the concatenation begins. -/
def offset (code : ι → List α) (es : List ι) (k : ℕ) : ℕ := ((es.take k).flatMap code).length

theorem split_unique {t : α} {b b' r r' : List α} (h : b ++ t :: r = b' ++ t :: r')
    (hb : t ∉ b) (hb' : t ∉ b') : b = b' := by
  induction b generalizing b' with
  | nil =>
      cases b' with
      | nil => rfl
      | cons x b' => exact absurd (List.mem_cons.mpr (Or.inl (List.cons.inj h).1)) hb'
  | cons y b ih =>
      cases b' with
      | nil => exact absurd (List.mem_cons.mpr (Or.inl (List.cons.inj h).1.symm)) hb
      | cons x b' =>
          obtain ⟨rfl, htail⟩ := List.cons.inj h
          rw [ih htail (fun hm => hb (List.mem_cons_of_mem y hm))
            (fun hm => hb' (List.mem_cons_of_mem y hm))]

section Code

variable {code : ι → List α} {start stop : α}

theorem offset_zero (es : List ι) : offset code es 0 = 0 := rfl

theorem offset_succ (f : ι) (es : List ι) (k : ℕ) :
    offset code (f :: es) (k + 1) = (code f).length + offset code es k := by
  rw [offset, List.take_succ_cons, List.flatMap_cons, List.length_append]
  rfl

theorem Marked.length_pos (h : Marked code start stop) (e : ι) : 0 < (code e).length := by
  obtain ⟨body, hcode, -⟩ := h.form e
  rw [hcode, List.length_cons]
  exact Nat.succ_pos _

/-- At the beginning of a word only that word can be read. -/
theorem Marked.eq_of_head (h : Marked code start stop) {e f : ι} {rest : List α}
    (hp : code e <+: code f ++ rest) : e = f := by
  obtain ⟨b, he, -, hb⟩ := h.form e
  obtain ⟨b', hf, -, hb'⟩ := h.form f
  obtain ⟨r, hr⟩ := hp
  rw [he, hf] at hr
  simp only [List.cons_append, List.append_assoc] at hr
  -- both words end at the first `stop`
  have hbody := split_unique (List.cons.inj hr).2 hb hb'
  exact h.inj (by rw [he, hf, hbody])

/-- Inside of a word no word begins. -/
theorem Marked.not_inside (h : Marked code start stop) {e f : ι} {rest : List α} {o : ℕ}
    (hpos : 0 < o) (hlt : o < (code f).length) : ¬ code e <+: (code f ++ rest).drop o := by
  obtain ⟨b, he, -⟩ := h.form e
  obtain ⟨b', hf, hs, -⟩ := h.form f
  obtain ⟨o, rfl⟩ := Nat.exists_eq_succ_of_ne_zero (Nat.ne_of_gt hpos)
  rw [hf, List.length_cons, Nat.succ_lt_succ_iff] at hlt
  rw [he, hf, List.cons_append, List.drop_succ_cons, List.drop_append_of_le_length (Nat.le_of_lt hlt),
    List.drop_eq_getElem_cons hlt]
  rintro ⟨r, hr⟩
  -- the symbol there would be a `start` inside of `code f`
  have hmem : start ∈ b' ++ [stop] := by
    rw [(List.cons.inj hr).1]
    exact List.getElem_mem hlt
  rcases List.mem_append.mp hmem with hm | hm
  · exact hs hm
  · exact h.ne (List.mem_singleton.mp hm)

/-- **A word occurs only where it was put.** -/
theorem Marked.occurs_iff (h : Marked code start stop) (e : ι) (es : List ι) (o : ℕ) :
    code e <+: (es.flatMap code).drop o ↔ ∃ k : ℕ, es[k]? = some e ∧ o = offset code es k := by
  induction es generalizing o with
  | nil =>
      constructor
      · intro hp
        have hlen := hp.length_le
        have hpos := h.length_pos e
        rw [List.flatMap_nil, List.drop_nil, List.length_nil] at hlen
        omega
      · rintro ⟨k, hk, -⟩
        exact nomatch hk
  | cons f es ih =>
      rw [List.flatMap_cons]
      constructor
      · intro hp
        -- at the head, inside of the first word, or in the rest
        rcases Nat.eq_zero_or_pos o with rfl | hpos
        · obtain rfl := h.eq_of_head hp
          exact ⟨0, rfl, rfl⟩
        rcases Nat.lt_or_ge o (code f).length with hlt | hge
        · exact absurd hp (h.not_inside hpos hlt)
        · obtain ⟨o', rfl⟩ := Nat.exists_eq_add_of_le hge
          rw [List.drop_append, List.drop_eq_nil_of_le (by omega), List.nil_append,
            Nat.add_sub_cancel_left] at hp
          obtain ⟨k, hk, rfl⟩ := (ih o').mp hp
          exact ⟨k + 1, hk, (offset_succ f es k).symm⟩
      · rintro ⟨k, hk, rfl⟩
        cases k with
        | zero =>
            obtain rfl := Option.some.inj hk
            exact List.prefix_append _ _
        | succ k =>
            rw [offset_succ, List.drop_append, List.drop_eq_nil_of_le (by omega),
              List.nil_append, Nat.add_sub_cancel_left]
            exact (ih _).mpr ⟨k, hk, rfl⟩

theorem offset_le (code : ι → List α) (es : List ι) (k : ℕ) :
    offset code es k ≤ (es.flatMap code).length := by
  have hsplit : (es.take k).flatMap code ++ (es.drop k).flatMap code = es.flatMap code := by
    rw [← List.flatMap_append, List.take_append_drop]
  rw [offset, ← hsplit, List.length_append]
  exact Nat.le_add_right _ _

/-- The words stand one behind the other. -/
theorem Marked.offset_lt_iff (h : Marked code start stop) {es : List ι} {k k' : ℕ}
    (hk : k < es.length) (hk' : k' < es.length) :
    offset code es k < offset code es k' ↔ k < k' := by
  have hmono : ∀ (es : List ι) (k k' : ℕ), k < k' → k' < es.length →
      offset code es k < offset code es k' := by
    intro es
    induction es with
    | nil => exact fun k k' _ hlt => absurd hlt (Nat.not_lt_zero _)
    | cons f es ih =>
        intro k k' hlt hlen
        obtain ⟨k', rfl⟩ := Nat.exists_eq_succ_of_ne_zero (Nat.ne_of_gt (Nat.zero_lt_of_lt hlt))
        have hpos := h.length_pos f
        rw [Nat.succ_eq_add_one, offset_succ]
        cases k with
        | zero =>
            rw [offset_zero]
            omega
        | succ k =>
            have hrest := ih k k' (by omega) (by rw [List.length_cons] at hlen; omega)
            rw [offset_succ]
            omega
  constructor
  · intro hlt
    by_contra hge
    rcases Nat.lt_or_eq_of_le (Nat.le_of_not_lt hge) with hgt | rfl
    · exact absurd (hmono es k' k hgt hk) (Nat.lt_asymm hlt)
    · exact absurd hlt (Nat.lt_irrefl _)
  · exact fun hlt => hmono es k k' hlt hk'

theorem Marked.offset_inj (h : Marked code start stop) {es : List ι} {k k' : ℕ}
    (hk : k < es.length) (hk' : k' < es.length) (heq : offset code es k = offset code es k') :
    k = k' := by
  have hlt := h.offset_lt_iff hk hk'
  have hgt := h.offset_lt_iff hk' hk
  omega

end Code

/-! ## §3. What the searches find. -/

section Search

variable [DecidableEq ι] {code : ι → List α} {start stop : α}

theorem idxOf_le {es : List ι} {e : ι} {k : ℕ} (hk : es[k]? = some e) : es.idxOf e ≤ k := by
  obtain ⟨hlen, hget⟩ := List.getElem?_eq_some_iff.mp hk
  by_contra hlt
  have hne : (es[k] == e) = false := List.not_of_lt_findIdx (Nat.lt_of_not_le hlt)
  exact ne_of_beq_false hne hget

theorem Marked.occurs_idxOf (h : Marked code start stop) {e : ι} {es : List ι} (he : e ∈ es) :
    code e <+: (es.flatMap code).drop (offset code es (es.idxOf e)) := by
  have hget : es[es.idxOf e]? = some e := List.getElem?_idxOf he
  exact (h.occurs_iff e es _).mpr ⟨es.idxOf e, hget, rfl⟩

variable [DecidableEq α]

/-- **A search from the left finds the first of the word's occurrences.** -/
theorem Marked.index_flatMap (h : Marked code start stop) (e : ι) (es : List ι) :
    index (es.flatMap code) (code e) =
      if e ∈ es then (offset code es (es.idxOf e) : ℤ) else -1 := by
  by_cases he : e ∈ es
  · have hidx : es.idxOf e < es.length := List.idxOf_lt_length_of_mem he
    have hfind : (List.range ((es.flatMap code).length + 1)).find?
        (fun o => (code e).isPrefixOf ((es.flatMap code).drop o))
        = some (offset code es (es.idxOf e)) := by
      refine List.find?_range_eq_some.mpr ⟨?_, ?_, fun o ho => ?_⟩
      · exact List.isPrefixOf_iff_prefix.mpr (h.occurs_idxOf he)
      · exact List.mem_range.mpr (Nat.lt_succ_of_le (offset_le code es _))
      · rw [Bool.not_eq_true', ← Bool.not_eq_true, List.isPrefixOf_iff_prefix]
        intro hocc
        obtain ⟨k, hk, rfl⟩ := (h.occurs_iff e es o).mp hocc
        obtain ⟨hlen, -⟩ := List.getElem?_eq_some_iff.mp hk
        -- an earlier place would be an earlier `e`
        have hfirst := (h.offset_lt_iff hlen hidx).mp ho
        exact absurd (idxOf_le hk) (Nat.not_le_of_lt hfirst)
    rw [index, hfind, if_pos he]
  · have hfind : (List.range ((es.flatMap code).length + 1)).find?
        (fun o => (code e).isPrefixOf ((es.flatMap code).drop o)) = none := by
      refine List.find?_range_eq_none.mpr (fun o _ => ?_)
      rw [Bool.not_eq_true', ← Bool.not_eq_true, List.isPrefixOf_iff_prefix]
      intro hocc
      obtain ⟨k, hk, -⟩ := (h.occurs_iff e es o).mp hocc
      exact he (List.mem_of_getElem? hk)
    rw [index, hfind, if_neg he]

/-- **The two searches meet exactly at a word that stands there once.** -/
theorem Marked.lastIndex_eq_index_iff (h : Marked code start stop) {e : ι} {es : List ι}
    (he : e ∈ es) :
    lastIndex (es.flatMap code) (code e) = index (es.flatMap code) (code e) ↔
      es.count e = 1 := by
  have hidx : es.idxOf e < es.length := List.idxOf_lt_length_of_mem he
  have hcount : 0 < es.count e := List.count_pos_iff.mpr he
  obtain ⟨m, -, hlast, hm, hmax⟩ := lastIndexFrom_spec (offset_le code es _) (h.occurs_idxOf he)
  obtain ⟨k, hk, rfl⟩ := (h.occurs_iff e es m).mp hm
  obtain ⟨hlen, hget⟩ := List.getElem?_eq_some_iff.mp hk
  rw [lastIndex, hlast, h.index_flatMap, if_pos he, Int.ofNat_inj]
  constructor
  · intro heq
    obtain rfl := h.offset_inj hlen hidx heq
    by_contra hne
    -- a second `e` would be found further right
    have hdup : List.Duplicate e es := List.duplicate_iff_two_le_count.mpr (by omega)
    obtain ⟨i, j, hij, hi, hj⟩ := List.duplicate_iff_exists_distinct_get.mp hdup
    have hfirst : es.idxOf e ≤ i := idxOf_le (List.getElem?_eq_some_iff.mpr ⟨i.isLt, hi.symm⟩)
    have hocc := (h.occurs_iff e es (offset code es j)).mpr
      ⟨j, List.getElem?_eq_some_iff.mpr ⟨j.isLt, hj.symm⟩, rfl⟩
    have hle := hmax _ (offset_le code es j) hocc
    have hlast := (h.offset_lt_iff hidx j.isLt).mpr (by omega)
    omega
  · intro hone
    rcases Nat.eq_or_lt_of_le (idxOf_le hk) with heq | hgt
    · rw [heq]
    · have hdup : List.Duplicate e es := List.duplicate_iff_exists_distinct_get.mpr
        ⟨⟨es.idxOf e, hidx⟩, ⟨k, hlen⟩, hgt, (List.getElem_idxOf hidx).symm, hget.symm⟩
      have htwo := List.duplicate_iff_two_le_count.mp hdup
      omega

end Search

end ComputerScience.Lib.Occurrences
