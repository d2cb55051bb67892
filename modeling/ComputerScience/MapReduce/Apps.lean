/-
  ComputerScience.MapReduce.Apps
  ──────────────────────────────
  **THE WORD COUNT AND INDEXER PLUGINS** (`mrapps/wc/wc.go`, `mrapps/indexer/indexer.go`).

  Three things are left open in a run: the order of the file arguments, the order in which
  `range` goes through the indexer's map, and how the sort breaks ties.  Both `Reduce`
  functions give the same for any order of their values, and so the output is a function
  of the files as a multiset:

    • `main_out` — the output of a run whose `Reduce` does not see the order of its values,
    • `wc_out`, `indexer_out` — the output of the two plugins, line by line,
    • `wcOut_perm`, `indexerOut_perm` — it does not depend on the order of the files.

  What a letter is, `unicode.IsLetter`, is a parameter.
-/
import ComputerScience.Lib.Decimal
import ComputerScience.Lib.Fields
import ComputerScience.Lib.Utf8
import ComputerScience.MapReduce.Sequential
import Mathlib.Data.List.Dedup
import Mathlib.Data.List.Sort

namespace ComputerScience.MapReduce

open ComputerScience.Lib

/-! ## §1. Strings. -/

/-- `strings.FieldsFunc(s, f)`: the maximal runs of code points that do not satisfy `f`. -/
def fieldsFunc (s : GoString) (f : ℕ → Bool) : List GoString :=
  (fields (fun r => f r.1) (runes s)).map (fun w => w.flatMap Prod.snd)

/-- `sort.Strings`: for a linear order there is one sorted permutation. -/
def sortStrings (xs : List GoString) : List GoString := xs.insertionSort (· ≤ ·)

theorem sortStrings_perm {xs ys : List GoString} (h : xs.Perm ys) :
    sortStrings xs = sortStrings ys := by
  unfold sortStrings
  have hperm : (xs.insertionSort (· ≤ ·)).Perm (ys.insertionSort (· ≤ ·)) :=
    (List.perm_insertionSort _ xs).trans (h.trans (List.perm_insertionSort _ ys).symm)
  exact hperm.eq_of_pairwise' (List.pairwise_insertionSort _ xs) (List.pairwise_insertionSort _ ys)

/-! ## §2. The plugins. -/

section

variable (isLetter : ℕ → Bool)

/-- The words of a file's contents. -/
def words (contents : GoString) : List GoString := fieldsFunc contents (fun r => !isLetter r)

/-- `Map` of `wc.go` -/
def wcMap : MapF := fun _ _ contents =>
  (words isLetter contents).map (fun w => { Key := w, Value := [49] })

/-- `Map` of `indexer.go`; `order n keys` is the order in which the `n`-th call goes through
the keys of its map. -/
def indexerMap (order : ℕ → List GoString → List GoString) : MapF := fun n document value =>
  (order n (words isLetter value).dedup).map (fun w => { Key := w, Value := document })

end

/-- `Reduce` of `wc.go` -/
def wcReduce : ReduceF := fun _ values => decimalNat values.length

/-- `Reduce` of `indexer.go` -/
def indexerReduce : ReduceF := fun _ values =>
  decimalNat values.length ++ [32] ++ List.intercalate [44] (sortStrings values)

/-- The value of `Reduce` does not depend on the order of its values. -/
def Unordered (reducef : ReduceF) : Prop :=
  ∀ key (vs vs' : List GoString), vs.Perm vs' → reducef key vs = reducef key vs'

theorem wcReduce_unordered : Unordered wcReduce := by
  intro key vs vs' h
  unfold wcReduce
  rw [h.length_eq]

theorem indexerReduce_unordered : Unordered indexerReduce := by
  intro key vs vs' h
  unfold indexerReduce
  rw [h.length_eq, sortStrings_perm h]

/-! ## §3. The output of a run. -/

/-- The lines for the keys of `kvs`, in order. -/
def outOf (reducef : ReduceF) (kvs : List KeyValue) : GoString :=
  ((kvs.map KeyValue.Key).toFinset.sort).flatMap (fun k =>
    outLine reducef (k, (kvs.filter (fun kv => kv.Key = k)).map KeyValue.Value))

/-- **The output of a run** whose `Reduce` does not see the order of its values. -/
theorem main_out {env : Env} {so : GoString} {mapf : MapF} {reducef : ReduceF}
    {files : List (GoString × GoString)} {sort : List KeyValue → List KeyValue} (prog : GoString)
    (hplugin : loadPlugin env so = .ok (mapf, reducef))
    (hfiles : ∀ f ∈ files, env.file f.1 = .contents f.2)
    (hsort : ∀ xs, SortsByKey xs (sort xs)) (hred : Unordered reducef) :
    (main env sort (prog :: so :: files.map Prod.fst)).out = outOf reducef (emitted mapf files) := by
  by_cases hne : files = []
  · have hnil : outOf reducef [] = [] := by
      unfold outOf
      rw [List.map_nil, List.toFinset_nil, Finset.sort_empty]
      rfl
    rw [hne]
    exact hnil.symm
  · obtain ⟨hperm, hsorted⟩ := hsort (emitted mapf files)
    rw [main_finished sort prog hplugin hfiles hne]
    show (runs KeyValue.Key KeyValue.Value (sort (emitted mapf files))).flatMap _ = _
    have hkeys : ((sort (emitted mapf files)).map KeyValue.Key).toFinset =
        ((emitted mapf files).map KeyValue.Key).toFinset :=
      List.toFinset_eq_of_perm _ _ (hperm.map _)
    rw [runs_eq_sort KeyValue.Value hsorted, hkeys, List.flatMap_map]
    unfold outOf outLine
    congr 1
    funext k
    rw [hred k _ _ ((hperm.filter _).map KeyValue.Value)]

/-! ## §4. Word count. -/

section

variable (isLetter : ℕ → Bool)

/-- The words of all files. -/
def allWords (files : List (GoString × GoString)) : List GoString :=
  files.flatMap (fun f => words isLetter f.2)

/-- Each word in order, with the number of its occurrences over all files. -/
def wcOut (files : List (GoString × GoString)) : GoString :=
  ((allWords isLetter files).toFinset.sort).flatMap (fun w =>
    w ++ [32] ++ decimalNat ((allWords isLetter files).count w) ++ [10])

theorem wc_emittedFrom (n : ℕ) (files : List (GoString × GoString)) :
    emittedFrom (wcMap isLetter) n files =
      (allWords isLetter files).map (fun w => { Key := w, Value := [49] }) := by
  induction files generalizing n with
  | nil => rfl
  | cons f files ih =>
      show wcMap isLetter n f.1 f.2 ++ emittedFrom (wcMap isLetter) (n + 1) files = _
      rw [ih]
      unfold allWords
      rw [List.flatMap_cons, List.map_append]
      rfl

/-- The lines of the word count. -/
theorem wc_outOf (files : List (GoString × GoString)) :
    outOf wcReduce (emitted (wcMap isLetter) files) = wcOut isLetter files := by
  unfold emitted outOf wcOut
  rw [wc_emittedFrom, List.map_map]
  have hkeys : (allWords isLetter files).map
      (KeyValue.Key ∘ fun w => { Key := w, Value := [49] }) = allWords isLetter files :=
    List.map_id _
  rw [hkeys]
  congr 1
  funext w
  have hcount : ((allWords isLetter files).filter (fun v => v = w)).length =
      (allWords isLetter files).count w := by
    rw [List.filter_eq, List.length_replicate]
  rw [List.filter_map, List.map_map, ← hcount]
  show w ++ [32] ++ decimalNat (List.length (List.map _ _)) ++ [10] = _
  rw [List.length_map]
  rfl

/-- The word count does not depend on the order of the files. -/
theorem wcOut_perm {files files' : List (GoString × GoString)} (h : files'.Perm files) :
    wcOut isLetter files' = wcOut isLetter files := by
  have hwords : (allWords isLetter files').Perm (allWords isLetter files) := h.flatMap_right _
  unfold wcOut
  rw [List.toFinset_eq_of_perm _ _ hwords]
  congr 1
  funext w
  rw [hwords.count_eq w]

/-! ## §5. The index. -/

/-- The names of the file arguments that contain a word, in sorted order. -/
def documents (files : List (GoString × GoString)) (w : GoString) : List GoString :=
  sortStrings ((files.filter (fun f => w ∈ words isLetter f.2)).map Prod.fst)

/-- Each word in order, with the number and the names of the files that contain it. -/
def indexerOut (files : List (GoString × GoString)) : GoString :=
  ((allWords isLetter files).toFinset.sort).flatMap (fun w =>
    w ++ [32] ++ (decimalNat (documents isLetter files w).length ++ [32] ++
      List.intercalate [44] (documents isLetter files w)) ++ [10])

variable {order : ℕ → List GoString → List GoString} (horder : ∀ n ws, (order n ws).Perm ws)

include horder

/-- A call of `Map` emits a word of its file once. -/
theorem indexer_values (n : ℕ) (f : GoString × GoString) (w : GoString) :
    ((indexerMap isLetter order n f.1 f.2).filter (fun kv => kv.Key = w)).map KeyValue.Value =
      if w ∈ words isLetter f.2 then [f.1] else [] := by
  have hcount : (order n (words isLetter f.2).dedup).count w =
      if w ∈ words isLetter f.2 then 1 else 0 := by
    rw [(horder n _).count_eq]
    split
    next hw => exact List.count_eq_one_of_mem (List.nodup_dedup _) (List.mem_dedup.mpr hw)
    next hw => exact List.count_eq_zero_of_not_mem (fun h => hw (List.mem_dedup.mp h))
  have hfilter : (indexerMap isLetter order n f.1 f.2).filter (fun kv => kv.Key = w) =
      ((order n (words isLetter f.2).dedup).filter (fun v => v = w)).map
        (fun v => { Key := v, Value := f.1 }) := by
    unfold indexerMap
    rw [List.filter_map]
    rfl
  rw [hfilter, List.map_map, List.filter_eq, hcount]
  split
  · rfl
  · rfl

/-- The values of a word are the names of its files. -/
theorem indexer_emitted_values (n : ℕ) (files : List (GoString × GoString)) (w : GoString) :
    ((emittedFrom (indexerMap isLetter order) n files).filter (fun kv => kv.Key = w)).map
        KeyValue.Value =
      (files.filter (fun f => w ∈ words isLetter f.2)).map Prod.fst := by
  induction files generalizing n with
  | nil => rfl
  | cons f files ih =>
      show ((indexerMap isLetter order n f.1 f.2 ++
        emittedFrom (indexerMap isLetter order) (n + 1) files).filter _).map _ = _
      rw [List.filter_append, List.map_append, indexer_values isLetter horder, ih]
      by_cases hw : w ∈ words isLetter f.2
      · rw [if_pos hw, List.filter_cons_of_pos (by simpa using hw)]
        rfl
      · rw [if_neg hw, List.filter_cons_of_neg (by simpa using hw)]
        rfl

/-- The words emitted are the words of the files. -/
theorem indexer_emitted_keys (n : ℕ) (files : List (GoString × GoString)) (w : GoString) :
    w ∈ (emittedFrom (indexerMap isLetter order) n files).map KeyValue.Key ↔
      w ∈ allWords isLetter files := by
  induction files generalizing n with
  | nil => exact Iff.rfl
  | cons f files ih =>
      have hcall : w ∈ (indexerMap isLetter order n f.1 f.2).map KeyValue.Key ↔
          w ∈ words isLetter f.2 := by
        unfold indexerMap
        rw [List.map_map]
        show w ∈ (order n (words isLetter f.2).dedup).map id ↔ _
        rw [List.map_id, (horder n _).mem_iff, List.mem_dedup]
      show w ∈ (indexerMap isLetter order n f.1 f.2 ++
        emittedFrom (indexerMap isLetter order) (n + 1) files).map KeyValue.Key ↔ _
      unfold allWords at ih ⊢
      rw [List.map_append, List.mem_append, hcall, ih, List.flatMap_cons, List.mem_append]

/-- The lines of the index. -/
theorem indexer_outOf (files : List (GoString × GoString)) :
    outOf indexerReduce (emitted (indexerMap isLetter order) files) = indexerOut isLetter files := by
  have hkeys : ((emitted (indexerMap isLetter order) files).map KeyValue.Key).toFinset =
      (allWords isLetter files).toFinset := by
    ext w
    rw [List.mem_toFinset, List.mem_toFinset]
    exact indexer_emitted_keys isLetter horder 0 files w
  unfold outOf indexerOut
  rw [hkeys]
  congr 1
  funext w
  have hvalues : ((emitted (indexerMap isLetter order) files).filter (fun kv => kv.Key = w)).map
      KeyValue.Value = (files.filter (fun f => w ∈ words isLetter f.2)).map Prod.fst :=
    indexer_emitted_values isLetter horder 0 files w
  have hlen : (documents isLetter files w).length =
      ((files.filter (fun f => w ∈ words isLetter f.2)).map Prod.fst).length :=
    (List.perm_insertionSort _ _).length_eq
  show w ++ [32] ++ indexerReduce w _ ++ [10] = _
  rw [hvalues, hlen]
  rfl

omit horder in
/-- The index does not depend on the order of the files. -/
theorem indexerOut_perm {files files' : List (GoString × GoString)} (h : files'.Perm files) :
    indexerOut isLetter files' = indexerOut isLetter files := by
  have hwords : (allWords isLetter files').Perm (allWords isLetter files) := h.flatMap_right _
  have hdocs : ∀ w, documents isLetter files' w = documents isLetter files w := fun w =>
    sortStrings_perm ((h.filter _).map Prod.fst)
  unfold indexerOut
  rw [List.toFinset_eq_of_perm _ _ hwords]
  simp only [hdocs]

end

/-! ## §6. Pairs of runs. -/

/-- **Both plugins are independent of every order**: two runs on the same files, in any
order of the arguments, with any sort and any order of the indexer's map in each call,
leave the same output, and it is the one that the lines of `wcOut` and `indexerOut` say. -/
theorem apps_order_independent (isLetter : ℕ → Bool) (env env' : Env) (prog so so' : GoString)
    (files files' : List (GoString × GoString)) (hperm : files'.Perm files)
    (hfiles : ∀ f ∈ files, env.file f.1 = .contents f.2)
    (hfiles' : ∀ f ∈ files', env'.file f.1 = .contents f.2)
    (sort sort' : List KeyValue → List KeyValue) (hsort : ∀ xs, SortsByKey xs (sort xs))
    (hsort' : ∀ xs, SortsByKey xs (sort' xs)) :
    (loadPlugin env so = .ok (wcMap isLetter, wcReduce) →
      loadPlugin env' so = .ok (wcMap isLetter, wcReduce) →
      (main env sort (prog :: so :: files.map Prod.fst)).out = wcOut isLetter files ∧
      (main env' sort' (prog :: so :: files'.map Prod.fst)).out =
        (main env sort (prog :: so :: files.map Prod.fst)).out) ∧
    ∀ order order' : ℕ → List GoString → List GoString,
      (∀ n ws, (order n ws).Perm ws) → (∀ n ws, (order' n ws).Perm ws) →
      loadPlugin env so' = .ok (indexerMap isLetter order, indexerReduce) →
      loadPlugin env' so' = .ok (indexerMap isLetter order', indexerReduce) →
      (main env sort (prog :: so' :: files.map Prod.fst)).out = indexerOut isLetter files ∧
      (main env' sort' (prog :: so' :: files'.map Prod.fst)).out =
        (main env sort (prog :: so' :: files.map Prod.fst)).out := by
  constructor
  · intro hplugin hplugin'
    have hout := main_out prog hplugin hfiles hsort wcReduce_unordered
    have hout' := main_out prog hplugin' hfiles' hsort' wcReduce_unordered
    rw [wc_outOf] at hout hout'
    exact ⟨hout, by rw [hout, hout', wcOut_perm isLetter hperm]⟩
  · intro order order' horder horder' hplugin hplugin'
    have hout := main_out prog hplugin hfiles hsort indexerReduce_unordered
    have hout' := main_out prog hplugin' hfiles' hsort' indexerReduce_unordered
    rw [indexer_outOf isLetter horder] at hout
    rw [indexer_outOf isLetter horder'] at hout'
    exact ⟨hout, by rw [hout, hout', indexerOut_perm isLetter hperm]⟩

/-- Insertion sort by key. -/
def insertionSortByKey (xs : List KeyValue) : List KeyValue :=
  xs.insertionSort (fun a b => a.Key ≤ b.Key)

theorem insertionSortByKey_sorts (xs : List KeyValue) : SortsByKey xs (insertionSortByKey xs) := by
  exact ⟨List.perm_insertionSort _ xs, List.pairwise_insertionSort _ xs⟩

/-- Insertion sort with the ties the other way round. -/
theorem insertionSortByKey_reverse (xs : List KeyValue) :
    SortsByKey xs (insertionSortByKey xs.reverse) := by
  obtain ⟨hperm, hsorted⟩ := insertionSortByKey_sorts xs.reverse
  exact ⟨hperm.trans (List.reverse_perm xs), hsorted⟩

/-- The plugins under the names `"w"` and `"i"`, with an order of the indexer's map, and a
file for every name; every byte but the blank is a letter. -/
def appsEnv (order : ℕ → List GoString → List GoString) : Env where
  plugin so :=
    if so = [119] then some { Map := some (wcMap (· ≠ 32)), Reduce := some wcReduce }
    else some { Map := some (indexerMap (· ≠ 32) order), Reduce := some indexerReduce }
  file f := .contents f

/-- The files `a b` and `b a b` in both orders, with the indexer's map read forwards and
backwards and the ties of the sort both ways. -/
theorem apps_order_independent_shared :
    let backwards := appsEnv fun _ => List.reverse
    let forwards := appsEnv fun _ => id
    let short : GoString := [97, 32, 98]
    let long : GoString := [98, 32, 97, 32, 98]
    (main backwards (insertionSortByKey ∘ List.reverse) [[112], [119], long, short]).out =
        (main forwards insertionSortByKey [[112], [119], short, long]).out ∧
      (main backwards (insertionSortByKey ∘ List.reverse) [[112], [105], long, short]).out =
        (main forwards insertionSortByKey [[112], [105], short, long]).out := by
  intro backwards forwards short long
  have hfiles : ∀ order (fs : List (GoString × GoString)), (∀ f ∈ fs, f.2 = f.1) →
      ∀ f ∈ fs, (appsEnv order).file f.1 = .contents f.2 := by
    intro order fs hsame f hf
    rw [hsame f hf]
    rfl
  have h := apps_order_independent (· ≠ 32) forwards backwards [112] [119] [105]
    [(short, short), (long, long)] [(long, long), (short, short)] (List.Perm.swap _ _ _)
    (hfiles _ _ (by decide)) (hfiles _ _ (by decide)) insertionSortByKey
    (insertionSortByKey ∘ List.reverse) insertionSortByKey_sorts insertionSortByKey_reverse
  exact ⟨(h.1 rfl rfl).2, (h.2 (fun _ => id) (fun _ => List.reverse)
    (fun _ ws => List.Perm.refl ws) (fun _ ws => List.reverse_perm ws) rfl rfl).2⟩

end ComputerScience.MapReduce
