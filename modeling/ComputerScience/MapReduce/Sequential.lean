/-
  ComputerScience.MapReduce.Sequential
  ────────────────────────────────────
  **THE SEQUENTIAL MAPREDUCE** (`main/mrsequential/mrsequential.go`, with `KeyValue` of
  `mr/worker.go`).

  `main` maps every input file, sorts the pairs by key and walks over the sorted slice with
  three indices: the pairs from `i` to `j` have one key, and `Reduce` gets their values.
  What `sort.Sort` returns is any permutation that is sorted by key: it is a parameter,
  as are the plugin and the files.

    • `groupEnd_eq` — where the loop over `j` stops,
    • `reduceLoop_eq` — the calls of `Reduce` are the runs of equal keys,
    • `main_finished` — a run whose files can be read gets to its end.
-/
import ComputerScience.Lib.Grouping
import ComputerScience.Lib.Loop
import ComputerScience.Lib.Word
import Mathlib.Data.List.Lex
import Mathlib.Data.List.TakeWhile

namespace ComputerScience.MapReduce

open ComputerScience.Lib

/-- A Go string: its bytes, compared lexicographically. -/
abbrev GoString := List UInt8

structure KeyValue where
  Key : GoString
  Value : GoString
  deriving DecidableEq

/-- A `Map` function, with the number of the call before its arguments: what it returns may
differ from call to call, as when it ranges over a Go map. -/
abbrev MapF := ℕ → GoString → GoString → List KeyValue

abbrev ReduceF := GoString → List GoString → GoString

/-! ## §1. The program. -/

/-- A plugin file: the symbols that `Lookup` finds. -/
structure Plugin where
  Map : Option MapF
  Reduce : Option ReduceF

/-- What `os.Open` and `io.ReadAll` make of a file name. -/
inductive File
  | missing
  | unreadable
  | contents (content : GoString)

/-- What the program finds outside. -/
structure Env where
  plugin : GoString → Option Plugin
  file : GoString → File

/-- The messages with which the program gives up, by the file they name. -/
inductive Fatal
  /-- "Usage: mrsequential xxx.so inputfiles..." -/
  | usage
  /-- "cannot load plugin %v" -/
  | cannotLoad (filename : GoString)
  /-- "cannot find Map in %v" -/
  | cannotFindMap (filename : GoString)
  /-- "cannot find Reduce in %v" -/
  | cannotFindReduce (filename : GoString)
  /-- "cannot open %v" -/
  | cannotOpen (filename : GoString)
  /-- "cannot read %v" -/
  | cannotRead (filename : GoString)

def loadPlugin (env : Env) (filename : GoString) : Except Fatal (MapF × ReduceF) :=
  match env.plugin filename with
  | none => .error (.cannotLoad filename)
  | some p =>
      match p.Map, p.Reduce with
      | none, _ => .error (.cannotFindMap filename)
      | _, none => .error (.cannotFindReduce filename)
      | some mapf, some reducef => .ok (mapf, reducef)

/-- "read each input file, pass it to Map, accumulate the intermediate Map output", after
`n` files. -/
def mapFiles (env : Env) (mapf : MapF) :
    ℕ → List GoString → List KeyValue → Except Fatal (List KeyValue)
  | _, [], intermediate => .ok intermediate
  | n, filename :: files, intermediate =>
      match env.file filename with
      | .missing => .error (.cannotOpen filename)
      | .unreadable => .error (.cannotRead filename)
      | .contents content =>
          mapFiles env mapf (n + 1) files (intermediate ++ mapf n filename content)

/-- `for j < len(intermediate) && intermediate[j].Key == intermediate[i].Key { j++ }`: where
it stops, for the key of `intermediate[i]`. -/
def groupEnd (intermediate : List KeyValue) (key : GoString) (j : ℕ) : ℕ :=
  if h : j < intermediate.length then
    if intermediate[j].Key = key then groupEnd intermediate key (j + 1) else j
  else j
termination_by intermediate.length - j

/-- `for k := i; k < j; k++ { values = append(values, intermediate[k].Value) }` -/
def groupValues (intermediate : List KeyValue) (i j : ℕ) : Option (List GoString) :=
  forLoop i j 1 (fun k values => intermediate[k]?.map (fun kv => values ++ [kv.Value])) []

theorem le_groupEnd (intermediate : List KeyValue) (key : GoString) (j : ℕ) :
    j ≤ groupEnd intermediate key j := by
  fun_induction groupEnd intermediate key j with
  | case1 j h hkey ih => omega
  | case2 j h hkey => exact Nat.le_refl j
  | case3 j h => exact Nat.le_refl j

/-- "call Reduce on each distinct key in intermediate[]": the calls from index `i` on, each
with its key and its values; `none` would be an index out of range. -/
def reduceLoop (intermediate : List KeyValue) (i : ℕ) : Option (List (GoString × List GoString)) :=
  if h : i < intermediate.length then
    match groupValues intermediate i (groupEnd intermediate intermediate[i].Key (i + 1)) with
    | none => none
    | some values =>
        (reduceLoop intermediate (groupEnd intermediate intermediate[i].Key (i + 1))).map
          (fun calls => (intermediate[i].Key, values) :: calls)
  else some []
termination_by intermediate.length - i
decreasing_by
  have := le_groupEnd intermediate intermediate[i].Key (i + 1)
  omega

/-- `fmt.Fprintf(ofile, "%v %v\n", key, output)` -/
def outLine (reducef : ReduceF) (call : GoString × List GoString) : GoString :=
  call.1 ++ [32] ++ reducef call.1 call.2 ++ [10]

/-- How a run ends. -/
inductive Status
  | finished
  | fatal (e : Fatal)
  | panicked

/-- A run: how it ends, its calls of `Reduce`, and the contents of `mr-out-0`. -/
structure Run where
  status : Status
  calls : List (GoString × List GoString)
  out : GoString

/-- A run that ends before there is any output. -/
def Run.stop (status : Status) : Run := { status := status, calls := [], out := [] }

/-- `main`, for the arguments `os.Args`. -/
def main (env : Env) (sort : List KeyValue → List KeyValue) : List GoString → Run
  | _ :: so :: file :: files =>
      match loadPlugin env so with
      | .error e => Run.stop (.fatal e)
      | .ok (mapf, reducef) =>
          match mapFiles env mapf 0 (file :: files) [] with
          | .error e => Run.stop (.fatal e)
          | .ok intermediate =>
              match reduceLoop (sort intermediate) 0 with
              | none => Run.stop .panicked
              | some calls =>
                  { status := .finished, calls := calls, out := calls.flatMap (outLine reducef) }
  | _ => Run.stop (.fatal .usage)

/-- `sort.Sort(ByKey(xs))`: a permutation that is sorted by key. -/
def SortsByKey (xs ys : List KeyValue) : Prop :=
  ys.Perm xs ∧ ys.Pairwise (fun a b => a.Key ≤ b.Key)

/-! ## §2. The grouping loop. -/

/-- **Where the loop over `j` stops**: behind the pairs with the key. -/
theorem groupEnd_eq (xs : List KeyValue) (key : GoString) (j : ℕ) :
    groupEnd xs key j = j + ((xs.drop j).takeWhile (fun kv => kv.Key = key)).length := by
  fun_induction groupEnd xs key j with
  | case1 j h hkey ih =>
      rw [ih, List.drop_eq_getElem_cons h, List.takeWhile_cons_of_pos (by simpa using hkey),
        List.length_cons]
      omega
  | case2 j h hkey =>
      rw [List.drop_eq_getElem_cons h, List.takeWhile_cons_of_neg (by simpa using hkey)]
      rfl
  | case3 j h =>
      rw [List.drop_eq_nil_of_le (by omega)]
      rfl

/-- The values from `i` to `j`. -/
theorem groupValues_eq (xs : List KeyValue) {i j : ℕ} (hij : i ≤ j) (hj : j ≤ xs.length) :
    groupValues xs i j = some (((xs.drop i).take (j - i)).map KeyValue.Value) := by
  have hbody : ∀ k (values : List GoString), i ≤ k → k < j →
      values = ((xs.drop i).take (k - i)).map KeyValue.Value →
      ∃ values', xs[k]?.map (fun kv => values ++ [kv.Value]) = some values' ∧
        values' = ((xs.drop i).take (k + 1 - i)).map KeyValue.Value := by
    intro k values hlo hk hvalues
    have hget : xs[k]? = some xs[k] := List.getElem?_eq_getElem (by omega)
    have hnext : (xs.drop i).take (k + 1 - i) = (xs.drop i).take (k - i) ++ [xs[k]] := by
      have hdrop : (xs.drop i)[k - i]? = some xs[k] := by
        rw [List.getElem?_drop, show i + (k - i) = k by omega, hget]
      rw [show k + 1 - i = k - i + 1 by omega, List.take_add_one, hdrop]
      rfl
    refine ⟨values ++ [xs[k].Value], by rw [hget]; rfl, ?_⟩
    rw [hnext, List.map_append, ← hvalues]
    rfl
  obtain ⟨values, hloop, hvalues⟩ := forLoop_rule_one
    (fun k values => values = ((xs.drop i).take (k - i)).map KeyValue.Value) hij
    (show [] = _ by simp) hbody
  unfold groupValues
  rw [hloop, hvalues]

/-- **The calls of `Reduce`** are the runs of equal keys. -/
theorem reduceLoop_eq (xs : List KeyValue) (i : ℕ) :
    reduceLoop xs i = some (runs KeyValue.Key KeyValue.Value (xs.drop i)) := by
  induction hn : xs.length - i using Nat.strong_induction_on generalizing i with
  | _ n ih =>
      unfold reduceLoop
      by_cases h : i < xs.length
      · rw [dif_pos h]
        have hdrop : xs.drop i = xs[i] :: xs.drop (i + 1) := List.drop_eq_getElem_cons h
        have hend := groupEnd_eq xs xs[i].Key (i + 1)
        -- the block of the key, and what comes after it
        obtain ⟨block, hblock⟩ :
            ∃ block, block = (xs.drop (i + 1)).takeWhile (fun kv => kv.Key = xs[i].Key) := ⟨_, rfl⟩
        obtain ⟨rest, hrest⟩ :
            ∃ rest, rest = (xs.drop (i + 1)).dropWhile (fun kv => kv.Key = xs[i].Key) := ⟨_, rfl⟩
        have hsplit : xs.drop (i + 1) = block ++ rest := by
          rw [hblock, hrest, List.takeWhile_append_dropWhile]
        rw [← hblock] at hend
        have hlen : block.length + rest.length = xs.length - (i + 1) := by
          rw [← List.length_append, ← hsplit, List.length_drop]
        have hvalues : groupValues xs i (i + 1 + block.length) =
            some (xs[i].Value :: block.map KeyValue.Value) := by
          rw [groupValues_eq xs (by omega) (by omega), hdrop, hsplit,
            show i + 1 + block.length - i = block.length + 1 by omega, List.take_succ_cons,
            List.take_left' rfl]
          rfl
        have hafter : xs.drop (i + 1 + block.length) = rest := by
          rw [← List.drop_drop, hsplit, List.drop_left' rfl]
        rw [hend, hvalues, ih (xs.length - (i + 1 + block.length)) (by omega) _ rfl, hafter, hdrop,
          hsplit, runs_block KeyValue.Key KeyValue.Value]
        · rfl
        · intro kv hkv
          rw [hblock] at hkv
          simpa using List.mem_takeWhile_imp hkv
        · intro kv hkv hkey
          have := List.head?_dropWhile_not (fun kv => decide (kv.Key = xs[i].Key)) (xs.drop (i + 1))
          rw [← hrest, Option.mem_def.mp hkv] at this
          simp [hkey] at this
      · rw [dif_neg h, List.drop_eq_nil_of_le (by omega)]
        rfl

/-! ## §3. A whole run. -/

/-- The pairs that `Map` emits over the files, each a name and its contents, after `n`
files. -/
def emittedFrom (mapf : MapF) : ℕ → List (GoString × GoString) → List KeyValue
  | _, [] => []
  | n, f :: files => mapf n f.1 f.2 ++ emittedFrom mapf (n + 1) files

/-- The pairs that `Map` emits over all files. -/
def emitted (mapf : MapF) (files : List (GoString × GoString)) : List KeyValue :=
  emittedFrom mapf 0 files

theorem mapFiles_eq (env : Env) (mapf : MapF) (files : List (GoString × GoString))
    (hfiles : ∀ f ∈ files, env.file f.1 = .contents f.2) (n : ℕ) (acc : List KeyValue) :
    mapFiles env mapf n (files.map Prod.fst) acc = .ok (acc ++ emittedFrom mapf n files) := by
  induction files generalizing n acc with
  | nil =>
      show Except.ok acc = Except.ok (acc ++ [])
      rw [List.append_nil]
  | cons f files ih =>
      rw [List.map_cons, mapFiles, hfiles f List.mem_cons_self]
      show mapFiles env mapf (n + 1) (files.map Prod.fst) (acc ++ mapf n f.1 f.2) = _
      rw [ih (fun g hg => hfiles g (List.mem_cons_of_mem f hg)), List.append_assoc]
      rfl

section

variable {env : Env} {so : GoString} {mapf : MapF} {reducef : ReduceF}
  {files : List (GoString × GoString)} (sort : List KeyValue → List KeyValue) (prog : GoString)
  (hplugin : loadPlugin env so = .ok (mapf, reducef))
  (hfiles : ∀ f ∈ files, env.file f.1 = .contents f.2)

include hplugin hfiles

/-- **A run whose files can be read gets to its end.** -/
theorem main_finished (hne : files ≠ []) :
    main env sort (prog :: so :: files.map Prod.fst) =
      { status := .finished
        calls := runs KeyValue.Key KeyValue.Value (sort (emitted mapf files))
        out := (runs KeyValue.Key KeyValue.Value (sort (emitted mapf files))).flatMap
          (outLine reducef) } := by
  have hmap : mapFiles env mapf 0 (files.map Prod.fst) [] = .ok (emitted mapf files) :=
    mapFiles_eq env mapf files hfiles 0 []
  cases files with
  | nil => exact absurd rfl hne
  | cons f files =>
      rw [List.map_cons] at hmap ⊢
      rw [main, hplugin]
      simp only [hmap]
      rw [reduceLoop_eq, List.drop_zero]

/-- **`mrsequential`**: one line for each distinct key, in strictly increasing order, with
what `Reduce` makes of the key and of a permutation of all its values. -/
theorem mrsequential_groups (hsort : SortsByKey (emitted mapf files) (sort (emitted mapf files))) :
    let r := main env sort (prog :: so :: files.map Prod.fst)
    (files ≠ [] → r.status = .finished) ∧
    r.out = r.calls.flatMap (fun c => c.1 ++ [32] ++ reducef c.1 c.2 ++ [10]) ∧
    r.calls.Pairwise (fun c c' => c.1 < c'.1) ∧
    (∀ k, k ∈ r.calls.map Prod.fst ↔ k ∈ (emitted mapf files).map KeyValue.Key) ∧
    ∀ c ∈ r.calls,
      c.2.Perm (((emitted mapf files).filter (fun kv => kv.Key = c.1)).map KeyValue.Value) := by
  intro r
  by_cases hne : files = []
  · have hr : r = Run.stop (.fatal .usage) := by
      show main env sort (prog :: so :: files.map Prod.fst) = _
      rw [hne]
      rfl
    rw [hr, hne]
    refine ⟨fun h => absurd rfl h, rfl, List.Pairwise.nil, fun k => Iff.rfl, ?_⟩
    intro c hc
    exact absurd hc List.not_mem_nil
  · obtain ⟨hperm, hsorted⟩ := hsort
    have hr := main_finished sort prog hplugin hfiles hne
    have hcalls : r.calls = runs KeyValue.Key KeyValue.Value (sort (emitted mapf files)) :=
      congrArg Run.calls hr
    refine ⟨fun _ => congrArg Run.status hr, ?_, ?_, ?_, ?_⟩
    · rw [hcalls]
      exact congrArg Run.out hr
    · rw [hcalls]
      exact runs_pairwise KeyValue.Value hsorted
    · intro k
      rw [hcalls, mem_runs_keys]
      exact (hperm.map KeyValue.Key).mem_iff
    · intro c hc
      rw [hcalls] at hc
      rw [runs_values KeyValue.Value hsorted c hc]
      exact (hperm.filter _).map KeyValue.Value

end

/-- The file `"a"` contains `yx` and the others `x`; `Map` emits a pair for each byte, and the
plugin joins the values. -/
def pairEnv : Env where
  plugin _ := some
    { Map := some fun _ f c => c.map fun w => ⟨[w], f⟩, Reduce := some fun _ vs => vs.flatten }
  file f := .contents (if f = [97] then [121, 120] else [120])

/-- The key `x` gets a value from each file, and the sort turns them round. -/
theorem mrsequential_groups_twoValues :
    let r := main pairEnv List.reverse [[112], [115], [97], [98]]
    r.status = .finished ∧ r.calls.Pairwise (fun c c' => c.1 < c'.1) ∧
      [120] ∈ r.calls.map Prod.fst ∧
      ∀ c ∈ r.calls, c.1 = [120] → c.2.Perm [[97], [98]] := by
  have hplugin : loadPlugin pairEnv [115] =
      Except.ok (fun _ f c => c.map fun w => ⟨[w], f⟩, fun _ vs => vs.flatten) := rfl
  have hfiles : ∀ f ∈ [([97], [121, 120]), ([98], [120])], pairEnv.file f.1 = .contents f.2 := by
    intro f hf
    simp only [List.mem_cons, List.not_mem_nil, or_false] at hf
    rcases hf with rfl | rfl
    · rfl
    · rfl
  obtain ⟨hstatus, -, hkeys, hmem, hvalues⟩ :=
    mrsequential_groups List.reverse [112] hplugin hfiles ⟨by decide, by decide⟩
  refine ⟨hstatus (by decide), hkeys, (hmem [120]).mpr (by decide), ?_⟩
  intro c hc hkey
  have hperm := hvalues c hc
  rw [hkey] at hperm
  exact hperm

end ComputerScience.MapReduce
