/-
  ComputerScience.Kvraft.Partition
  ────────────────────────────────
  **NETWORK PARTITIONS IN THE KEY/VALUE TESTS** (`kvraft/config.go`).

  As in the Raft tests, `endnames[i][j]` is the end server `i` uses to reach server `j`,
  but here nothing else records who is connected: `partition` is built from
  `disconnectUnlocked` and `connectUnlocked`, which go over the row and the column of one
  server for a list of others.

  The servers, persisters and clerks that the operations also handle do not reach the ends
  between servers and are left out.  `none` is a panic or a `log.Fatalf`; in particular a
  name that `MakeEnd` has seen before is fatal, so that nothing is assumed of `randstring`.

  Main results:
    • `foldl_join_apply` — what a loop of `join`s does to a table of links,
    • `Ready.connectUnlocked`, `Ready.disconnectUnlocked`, `Ready.partition` — the operations
      do to the status of the ends what the abstract ones do to a table,
    • `Ready.reachable` — whole runs from `make_config`,
    • `partition_separates` — the two groups after `partition`.
-/
import ComputerScience.RaftConfig.Connectivity

namespace ComputerScience.Kvraft

open ComputerScience.Lib ComputerScience.Labrpc

/-! ## §1. Tables of links. -/

section

variable {ι σ : Type*} [DecidableEq ι]

/-- The links between `i` and the members of `l`, in both directions, set to `v`. -/
def cross (i : ι) (l : List ι) (v : σ) (m : ι → ι → σ) : ι → ι → σ := fun a b =>
  if (a = i ∧ b ∈ l) ∨ (b = i ∧ a ∈ l) then v else m a b

/-- `i` is cut off from `theirs` and linked to `mine`. -/
def join (mine theirs : List ι) (on off : σ) (m : ι → ι → σ) (i : ι) : ι → ι → σ :=
  cross i mine on (cross i theirs off m)

/-- The table in which each of two groups is linked and nothing links the one to the
other. -/
def separate (p1 p2 : List ι) (on off : σ) (m : ι → ι → σ) : ι → ι → σ :=
  p2.foldl (join p2 p1 on off) (p1.foldl (join p1 p2 on off) m)

/-- **A loop of `join`s**: a later turn may set a link that an earlier one has set, but
always to the value it has. -/
theorem foldl_join_apply {mine theirs : List ι} (on off : σ) {done : List ι}
    (hsub : ∀ i ∈ done, i ∈ mine) (m : ι → ι → σ) (a b : ι) :
    done.foldl (join mine theirs on off) m a b =
      if (a ∈ done ∧ b ∈ mine) ∨ (b ∈ done ∧ a ∈ mine) then on
      else if (a ∈ done ∧ b ∈ theirs) ∨ (b ∈ done ∧ a ∈ theirs) then off
      else m a b := by
  induction done generalizing m with
  | nil => simp
  | cons i done ih =>
      rw [List.foldl_cons, ih (fun j hj => hsub j (List.mem_cons_of_mem i hj))]
      unfold join cross
      grind

/-- Inside of one group everything is linked, and between the groups nothing. -/
theorem separate_apply {p1 p2 : List ι} (hd : p1.Disjoint p2) (on off : σ) (m : ι → ι → σ)
    (a b : ι) :
    separate p1 p2 on off m a b =
      if (a ∈ p1 ∧ b ∈ p1) ∨ (a ∈ p2 ∧ b ∈ p2) then on
      else if (a ∈ p1 ∧ b ∈ p2) ∨ (a ∈ p2 ∧ b ∈ p1) then off
      else m a b := by
  unfold separate
  rw [foldl_join_apply on off (fun i hi => hi), foldl_join_apply on off (fun i hi => hi)]
  have ha := hd (a := a)
  have hb := hd (a := b)
  grind

end

/-! ## §2. The configuration and its operations. -/

/-- The fields of `config` that decide who can talk to whom.  Servers are named by their
number; `E` are the end names and `S` the server objects. -/
structure Config (E S : Type) where
  n : ℕ
  net : Registry E ℕ S
  /-- Row `i < n` is nil until server `i` is started; a row has `n` names. -/
  endnames : ℕ → Option (ℕ → E)

variable {E S : Type} [DecidableEq E]

/-- `cfg.endnames[i]`, which may be nil. -/
def Config.row (cfg : Config E S) (i : ℕ) : Option (Option (ℕ → E)) :=
  if i < cfg.n then some (cfg.endnames i) else none

/-- `cfg.endnames[i][j]` -/
def Config.endname (cfg : Config E S) (i j : ℕ) : Option E :=
  (cfg.row i).bind fun row => row.bind fun names => if j < cfg.n then some (names j) else none

/-- Whether `endnames[i][j]` is enabled, for an end that exists. -/
def Config.status (cfg : Config E S) (i j : ℕ) : Option Bool :=
  (cfg.endname i j).map cfg.net.enabled

/-- `cfg.net.Enable(endname, enabled)` in a loop over a list, with the test in front of it. -/
def enableEnds (len : ℕ) (test : ℕ → Option Bool) (endname : ℕ → Option E) (enabled : Bool)
    (net : Registry E ℕ S) : Option (Registry E ℕ S) :=
  forLoop 0 len 1 (fun j net => (test j).bind fun ok =>
    if ok then (endname j).bind fun e => RaftConfig.call (.enable e enabled) net else some net) net

/-- Attach server `i` to the servers listed in `peers`. -/
def Config.connectUnlocked (cfg : Config E S) (i : ℕ) (peers : List ℕ) : Option (Config E S) :=
  -- outgoing, then incoming
  (enableEnds peers.length (fun _ => some true)
      (fun j => peers[j]?.bind fun k => cfg.endname i k) true cfg.net).bind fun net =>
    (enableEnds peers.length (fun _ => some true)
        (fun j => peers[j]?.bind fun k => cfg.endname k i) true net).bind fun net =>
      some { cfg with net := net }

/-- Detach server `i` from the servers listed in `peers`. -/
def Config.disconnectUnlocked (cfg : Config E S) (i : ℕ) (peers : List ℕ) :
    Option (Config E S) :=
  (enableEnds peers.length (fun _ => (cfg.row i).map Option.isSome)
      (fun j => peers[j]?.bind fun k => cfg.endname i k) false cfg.net).bind fun net =>
    -- the row that is tested is that of the position, not of the server listed there
    (enableEnds peers.length (fun j => (cfg.row j).map Option.isSome)
        (fun j => peers[j]?.bind fun k => cfg.endname k i) false net).bind fun net =>
      some { cfg with net := net }

/-- `All` -/
def Config.all (cfg : Config E S) : List ℕ := List.range cfg.n

def Config.connectAll (cfg : Config E S) : Option (Config E S) :=
  forLoop 0 cfg.n 1 (fun i (cfg : Config E S) => cfg.connectUnlocked i cfg.all) cfg

/-- One of the two loops of `partition`. -/
def Config.partitionLoop (mine theirs : List ℕ) (cfg : Config E S) : Option (Config E S) :=
  forLoop 0 mine.length 1 (fun i (cfg : Config E S) => mine[i]?.bind fun k =>
    (cfg.disconnectUnlocked k theirs).bind fun cfg => cfg.connectUnlocked k mine) cfg

/-- Sets up 2 partitions with connectivity between servers in each partition. -/
def Config.partition (cfg : Config E S) (p1 p2 : List ℕ) : Option (Config E S) :=
  (cfg.partitionLoop p1 p2).bind (Config.partitionLoop p2 p1)

/-- Shutdown a server by isolating it. -/
def Config.shutdownServer (cfg : Config E S) (i : ℕ) : Option (Config E S) :=
  (cfg.disconnectUnlocked i cfg.all).bind fun cfg =>
    (RaftConfig.call (.deleteServer i) cfg.net).bind fun net => some { cfg with net := net }

/-- Start server `i`, with the names `randstring` gives and the new server object. -/
def Config.startServer (cfg : Config E S) (i : ℕ) (names : ℕ → E) (srv : S) :
    Option (Config E S) :=
  if i < cfg.n then
    (forLoop 0 cfg.n 1 (fun j net =>
        (RaftConfig.call (.makeEnd (names j)) net).bind
          (RaftConfig.call (.connect (names j) (some j)))) cfg.net).bind fun net =>
      (RaftConfig.call (.addServer i srv) net).bind fun net =>
        some { cfg with endnames := Function.update cfg.endnames i (some names), net := net }
  else none

/-- `make_config`: start all servers, then connect all of them. -/
def makeConfig (n : ℕ) (unreliable : Bool) (names : ℕ → ℕ → E) (srv : ℕ → S) :
    Option (Config E S) :=
  (forLoop 0 n 1 (fun i (cfg : Config E S) => cfg.startServer i (names i) (srv i))
      ⟨n, .make, fun _ => none⟩).bind fun cfg =>
    cfg.connectAll.bind fun cfg =>
      (RaftConfig.call (.reliable (!unreliable)) cfg.net).bind fun net =>
        some { cfg with net := net }

/-- The operations of a test on its servers. -/
inductive ConfigOp (E S : Type) where
  | connect (i : ℕ) (peers : List ℕ)
  | disconnect (i : ℕ) (peers : List ℕ)
  | connectAll
  | shutdownServer (i : ℕ)
  | startServer (i : ℕ) (names : ℕ → E) (srv : S)
  | partition (p1 p2 : List ℕ)

def ConfigOp.apply (cfg : Config E S) : ConfigOp E S → Option (Config E S)
  | .connect i peers => cfg.connectUnlocked i peers
  | .disconnect i peers => cfg.disconnectUnlocked i peers
  | .connectAll => cfg.connectAll
  | .shutdownServer i => cfg.shutdownServer i
  | .startServer i names srv => cfg.startServer i names srv
  | .partition p1 p2 => cfg.partition p1 p2

/-- The runs of a test with `n` servers: from `make_config`, any sequence of operations
none of which panics. -/
def configSystem (E S : Type) [DecidableEq E] (n : ℕ) : System (Config E S) where
  init cfg := ∃ unreliable names srv, makeConfig n unreliable names srv = some cfg
  step cfg cfg' := ∃ op : ConfigOp E S, op.apply cfg = some cfg'

/-! ## §3. What the operations leave alone. -/

/-- The names and the ends are the same. -/
structure SameNames (cfg cfg' : Config E S) : Prop where
  n : cfg'.n = cfg.n
  endnames : cfg'.endnames = cfg.endnames
  ends : cfg'.net.ends = cfg.net.ends

omit [DecidableEq E] in
theorem SameNames.refl (cfg : Config E S) : SameNames cfg cfg := ⟨rfl, rfl, rfl⟩

omit [DecidableEq E] in
theorem SameNames.trans {cfg mid cfg' : Config E S} (h : SameNames cfg mid)
    (h' : SameNames mid cfg') : SameNames cfg cfg' :=
  ⟨h'.n.trans h.n, h'.endnames.trans h.endnames, h'.ends.trans h.ends⟩

omit [DecidableEq E] in
theorem SameNames.endname {cfg cfg' : Config E S} (h : SameNames cfg cfg') :
    cfg'.endname = cfg.endname := by
  funext i j
  unfold Config.endname Config.row
  rw [h.n, h.endnames]

/-- No loop over ends makes an end. -/
theorem enableEnds_ends {len : ℕ} {test : ℕ → Option Bool} {endname : ℕ → Option E}
    {enabled : Bool} {net net' : Registry E ℕ S}
    (h : enableEnds len test endname enabled net = some net') : net'.ends = net.ends := by
  refine forLoop_partial (fun _ (t : Registry E ℕ S) => t.ends = net.ends) (Nat.zero_le len) rfl
    ?_ h
  intro j t t' _ _ ht hturn
  obtain ⟨ok, -, hturn⟩ := Option.bind_eq_some_iff.mp hturn
  cases ok with
  | false =>
      cases hturn
      exact ht
  | true =>
      obtain ⟨e, -, hcall⟩ := Option.bind_eq_some_iff.mp hturn
      cases hcall
      exact ht

theorem connectUnlocked_same {cfg cfg' : Config E S} {i : ℕ} {peers : List ℕ}
    (h : cfg.connectUnlocked i peers = some cfg') : SameNames cfg cfg' := by
  obtain ⟨mid, hmid, h⟩ := Option.bind_eq_some_iff.mp h
  obtain ⟨net, hnet, h⟩ := Option.bind_eq_some_iff.mp h
  cases h
  exact ⟨rfl, rfl, (enableEnds_ends hnet).trans (enableEnds_ends hmid)⟩

theorem disconnectUnlocked_same {cfg cfg' : Config E S} {i : ℕ} {peers : List ℕ}
    (h : cfg.disconnectUnlocked i peers = some cfg') : SameNames cfg cfg' := by
  obtain ⟨mid, hmid, h⟩ := Option.bind_eq_some_iff.mp h
  obtain ⟨net, hnet, h⟩ := Option.bind_eq_some_iff.mp h
  cases h
  exact ⟨rfl, rfl, (enableEnds_ends hnet).trans (enableEnds_ends hmid)⟩

theorem connectAll_same {cfg cfg' : Config E S} (h : cfg.connectAll = some cfg') :
    SameNames cfg cfg' := by
  refine forLoop_partial (fun _ => SameNames cfg) (Nat.zero_le _) (SameNames.refl cfg) ?_ h
  intro i t t' _ _ ht hturn
  exact ht.trans (connectUnlocked_same hturn)

theorem partitionLoop_same {cfg cfg' : Config E S} {mine theirs : List ℕ}
    (h : cfg.partitionLoop mine theirs = some cfg') : SameNames cfg cfg' := by
  refine forLoop_partial (fun _ => SameNames cfg) (Nat.zero_le _) (SameNames.refl cfg) ?_ h
  intro i t t' _ _ ht hturn
  obtain ⟨k, -, hturn⟩ := Option.bind_eq_some_iff.mp hturn
  obtain ⟨mid, hmid, hturn⟩ := Option.bind_eq_some_iff.mp hturn
  exact (ht.trans (disconnectUnlocked_same hmid)).trans (connectUnlocked_same hturn)

theorem shutdownServer_same {cfg cfg' : Config E S} {i : ℕ}
    (h : cfg.shutdownServer i = some cfg') : SameNames cfg cfg' := by
  obtain ⟨mid, hmid, h⟩ := Option.bind_eq_some_iff.mp h
  cases h
  have hsame := disconnectUnlocked_same hmid
  exact ⟨hsame.n, hsame.endnames, hsame.ends⟩

/-! ## §4. The names of a run. -/

/-- The current ends exist and differ from each other. -/
structure Named (cfg : Config E S) : Prop where
  exists_end : ∀ i j e, cfg.endname i j = some e → cfg.net.ends e = true
  inj : ∀ i j i' j' e, cfg.endname i j = some e → cfg.endname i' j' = some e → i = i' ∧ j = j'

/-- All servers were started. -/
structure Ready (n : ℕ) (cfg : Config E S) : Prop where
  named : Named cfg
  size : cfg.n = n
  rows : ∀ i < n, (cfg.endnames i).isSome

omit [DecidableEq E] in
theorem Named.same {cfg cfg' : Config E S} (hn : Named cfg) (h : SameNames cfg cfg') :
    Named cfg' := by
  refine ⟨?_, ?_⟩
  · rw [h.endname, h.ends]
    exact hn.exists_end
  · rw [h.endname]
    exact hn.inj

omit [DecidableEq E] in
theorem Ready.same {n : ℕ} {cfg cfg' : Config E S} (hr : Ready n cfg) (h : SameNames cfg cfg') :
    Ready n cfg' :=
  ⟨hr.named.same h, h.n.trans hr.size, by rw [h.endnames]; exact hr.rows⟩

/-- The loop of `MakeEnd` and `Connect`, if it ends: the names are new and differ, since a
name that exists is fatal. -/
theorem makeEnds_fresh {n : ℕ} {names : ℕ → E} {net net' : Registry E ℕ S}
    (h : forLoop 0 n 1 (fun j net =>
      (RaftConfig.call (.makeEnd (names j)) net).bind
        (RaftConfig.call (.connect (names j) (some j)))) net = some net') :
    (∀ e, net'.ends e = true ↔ net.ends e = true ∨ ∃ j < n, names j = e) ∧
      (∀ j < n, net.ends (names j) = false) ∧
      ∀ j < n, ∀ k < n, names j = names k → j = k := by
  refine forLoop_partial (fun m (t : Registry E ℕ S) =>
      (∀ e, t.ends e = true ↔ net.ends e = true ∨ ∃ j < m, names j = e) ∧
      (∀ j < m, net.ends (names j) = false) ∧
      ∀ j < m, ∀ k < m, names j = names k → j = k)
    (Nat.zero_le n) ⟨by simp, by simp, by simp⟩ ?_ h
  rintro m t t' _ hm ⟨hends, hnew, hinj⟩ hturn
  obtain ⟨mid, hmake, hconn⟩ := Option.bind_eq_some_iff.mp hturn
  have hfatal : t.ends (names m) = false := by
    by_contra hmade
    rw [Bool.not_eq_false] at hmade
    simp [RaftConfig.call, NetOp.fatal, hmade] at hmake
  have hmid : mid = NetOp.apply t (.makeEnd (names m)) := by
    simpa [RaftConfig.call, NetOp.fatal, hfatal] using hmake.symm
  subst hmid
  cases hconn
  -- name `m` is none of the ends so far
  have hold : ¬ (net.ends (names m) = true ∨ ∃ j < m, names j = names m) := by
    rw [← hends, hfatal]
    simp
  refine ⟨?_, ?_, ?_⟩
  · exact RaftConfig.ends_update hends
  · intro j hj
    rcases Nat.lt_succ_iff_lt_or_eq.mp hj with hlt | rfl
    · exact hnew j hlt
    · simpa using fun hmade => hold (Or.inl hmade)
  · intro j hj k hk hjk
    rcases Nat.lt_succ_iff_lt_or_eq.mp hj with hj | rfl <;>
      rcases Nat.lt_succ_iff_lt_or_eq.mp hk with hk | rfl
    · exact hinj j hj k hk hjk
    · exact absurd (Or.inr ⟨j, hj, hjk⟩) hold
    · exact absurd (Or.inr ⟨k, hk, hjk.symm⟩) hold
    · rfl

omit [DecidableEq E] in
/-- The end names after row `i` was replaced. -/
theorem endname_newRow {cfg cfg' : Config E S} {i : ℕ} (hi : i < cfg.n) {names : ℕ → E}
    (hn : cfg'.n = cfg.n) (hrows : cfg'.endnames = Function.update cfg.endnames i (some names))
    (a b : ℕ) :
    cfg'.endname a b = if a = i then (if b < cfg.n then some (names b) else none)
      else cfg.endname a b := by
  unfold Config.endname Config.row
  rw [hn, hrows]
  by_cases ha : a = i
  · simp [ha, hi]
  · simp [ha]

/-- `StartServer`, if it does not fail: one new row of new names. -/
theorem Named.startServer {cfg cfg' : Config E S} (hn : Named cfg) {i : ℕ} {names : ℕ → E}
    {srv : S} (h : cfg.startServer i names srv = some cfg') :
    Named cfg' ∧ cfg'.n = cfg.n ∧ i < cfg.n ∧
      cfg'.endnames = Function.update cfg.endnames i (some names) := by
  unfold Config.startServer at h
  split at h
  case isFalse => cases h
  case isTrue hi =>
    obtain ⟨net, hnet, h⟩ := Option.bind_eq_some_iff.mp h
    cases h
    obtain ⟨hends, hnew, hinj⟩ := makeEnds_fresh hnet
    have hname := @endname_newRow E S cfg
      ⟨cfg.n, NetOp.apply net (.addServer i srv), Function.update cfg.endnames i (some names)⟩
      i hi names rfl rfl
    -- a name of the new row is no name of the old ones
    have hclash : ∀ a b c, c < cfg.n → cfg.endname a b ≠ some (names c) := by
      intro a b c hc hab
      have hmade := hn.exists_end a b (names c) hab
      rw [hnew c hc] at hmade
      cases hmade
    refine ⟨⟨?_, ?_⟩, rfl, hi, rfl⟩
    · intro a b e hab
      show net.ends e = true
      rw [hname a b] at hab
      rw [hends e]
      split at hab
      · split at hab
        case isTrue hb => exact Or.inr ⟨b, hb, Option.some.inj hab⟩
        case isFalse => cases hab
      · exact Or.inl (hn.exists_end a b e hab)
    · intro a b a' b' e hab hab'
      rw [hname] at hab hab'
      split at hab <;> split at hab'
      case isTrue.isTrue ha ha' =>
        split at hab <;> split at hab'
        case isTrue.isTrue hb hb' =>
          refine ⟨ha.trans ha'.symm, hinj b hb b' hb' ?_⟩
          exact (Option.some.inj hab).trans (Option.some.inj hab').symm
        all_goals simp at hab hab'
      case isTrue.isFalse =>
        split at hab
        case isTrue hb => exact absurd (hab'.trans hab.symm) (hclash a' b' b hb)
        case isFalse => cases hab
      case isFalse.isTrue =>
        split at hab'
        case isTrue hb' => exact absurd (hab.trans hab'.symm) (hclash a b b' hb')
        case isFalse => cases hab'
      case isFalse.isFalse => exact hn.inj a b a' b' e hab hab'

omit [DecidableEq E] in
/-- Before a server is started there are no names. -/
theorem endname_nil {cfg : Config E S} (h : ∀ i, cfg.endnames i = none) (i j : ℕ) :
    cfg.endname i j = none := by
  unfold Config.endname Config.row
  rw [h i]
  split <;> rfl

/-- `make_config`, if it does not fail, leaves all servers started. -/
theorem makeConfig_ready {n : ℕ} {unreliable : Bool} {names : ℕ → ℕ → E} {srv : ℕ → S}
    {cfg : Config E S} (h : makeConfig n unreliable names srv = some cfg) : Ready n cfg := by
  obtain ⟨mid, hmid, h⟩ := Option.bind_eq_some_iff.mp h
  obtain ⟨mid', hmid', h⟩ := Option.bind_eq_some_iff.mp h
  cases h
  have hstart : Named mid ∧ mid.n = n ∧ ∀ i < n, (mid.endnames i).isSome := by
    refine forLoop_partial (fun k (cfg : Config E S) => Named cfg ∧ cfg.n = n ∧
      ∀ i < k, (cfg.endnames i).isSome) (Nat.zero_le n) ?_ ?_ hmid
    · have hnil := @endname_nil E S ⟨n, .make, fun _ => none⟩ fun _ => rfl
      exact ⟨⟨by simp [hnil], by simp [hnil]⟩, rfl, by simp⟩
    · rintro k t t' _ _ ⟨hn, hsize, hrows⟩ hturn
      obtain ⟨hn', hsize', -, hrows'⟩ := hn.startServer hturn
      refine ⟨hn', hsize'.trans hsize, ?_⟩
      intro i hi
      rw [hrows']
      by_cases hik : i = k
      · rw [hik, Function.update_self]
        rfl
      · rw [Function.update_of_ne hik]
        exact hrows i (by omega)
  have hready : Ready n mid' :=
    Ready.same ⟨hstart.1, hstart.2.1, hstart.2.2⟩ (connectAll_same hmid')
  exact ⟨⟨hready.named.exists_end, hready.named.inj⟩, hready.size, hready.rows⟩

/-- **One operation** keeps all servers started and their names distinct. -/
theorem Ready.apply {n : ℕ} {cfg cfg' : Config E S} (hr : Ready n cfg) {op : ConfigOp E S}
    (h : op.apply cfg = some cfg') : Ready n cfg' := by
  cases op with
  | connect i peers => exact hr.same (connectUnlocked_same h)
  | disconnect i peers => exact hr.same (disconnectUnlocked_same h)
  | connectAll => exact hr.same (connectAll_same h)
  | shutdownServer i => exact hr.same (shutdownServer_same h)
  | startServer i names srv =>
      obtain ⟨hn', hsize', -, hrows'⟩ := hr.named.startServer h
      refine ⟨hn', hsize'.trans hr.size, ?_⟩
      intro a ha
      rw [hrows']
      by_cases hai : a = i
      · rw [hai, Function.update_self]
        rfl
      · rw [Function.update_of_ne hai]
        exact hr.rows a ha
  | partition p1 p2 =>
      obtain ⟨mid, hmid, h⟩ := Option.bind_eq_some_iff.mp h
      exact hr.same ((partitionLoop_same hmid).trans (partitionLoop_same h))

theorem Ready.reachable {n : ℕ} {cfg : Config E S} (h : (configSystem E S n).Reachable cfg) :
    Ready n cfg := by
  refine h.invariant ?_ ?_
  · rintro cfg ⟨unreliable, names, srv, hmake⟩
    exact makeConfig_ready hmake
  · rintro cfg cfg' _ hr ⟨op, hop⟩
    exact hr.apply hop

/-! ## §5. The operations on the ends are the operations on a table. -/

/-- `cfg'` has the same names as `cfg`, the table `m` of statuses, and all ends outside of
the table as they were. -/
structure Rewired (cfg cfg' : Config E S) (m : ℕ → ℕ → Option Bool) : Prop where
  same : SameNames cfg cfg'
  status : cfg'.status = m
  other : ∀ e, (∀ i j, cfg.endname i j ≠ some e) → cfg'.net.enabled e = cfg.net.enabled e

omit [DecidableEq E] in
theorem Rewired.trans {cfg mid cfg' : Config E S} {m m' : ℕ → ℕ → Option Bool}
    (h : Rewired cfg mid m) (h' : Rewired mid cfg' m') : Rewired cfg cfg' m' := by
  refine ⟨h.same.trans h'.same, h'.status, ?_⟩
  intro e he
  rw [h'.other e (by rw [h.same.endname]; exact he), h.other e he]

omit [DecidableEq E] in
theorem Ready.endname_isSome {n : ℕ} {cfg : Config E S} (hr : Ready n cfg) {i j : ℕ}
    (hi : i < n) (hj : j < n) : (cfg.endname i j).isSome := by
  obtain ⟨names, hnames⟩ := Option.isSome_iff_exists.mp (hr.rows i hi)
  unfold Config.endname Config.row
  rw [hr.size, if_pos hi, hnames]
  simp [hj]

omit [DecidableEq E] in
theorem Ready.row_isSome {n : ℕ} {cfg : Config E S} (hr : Ready n cfg) {i : ℕ} (hi : i < n) :
    (cfg.row i).map Option.isSome = some true := by
  unfold Config.row
  rw [hr.size, if_pos hi, Option.map_some, hr.rows i hi]

/-- One loop over the ends `pair k` of the listed servers `k`, none of which its test skips. -/
theorem Ready.enableEnds_spec {n : ℕ} {cfg : Config E S} (hr : Ready n cfg) {peers : List ℕ}
    {test : ℕ → Option Bool} (htest : ∀ j < peers.length, test j = some true)
    (pair : ℕ → ℕ × ℕ) (hpair : ∀ k ∈ peers, (pair k).1 < n ∧ (pair k).2 < n) (enabled : Bool) :
    ∃ net, enableEnds peers.length test
        (fun j => peers[j]?.bind fun k => cfg.endname (pair k).1 (pair k).2) enabled cfg.net =
          some net ∧
      Rewired cfg { cfg with net := net } (fun a b =>
        if (a, b) ∈ peers.map pair then some enabled else cfg.status a b) := by
  have hloop : enableEnds peers.length test
        (fun j => peers[j]?.bind fun k => cfg.endname (pair k).1 (pair k).2) enabled cfg.net =
      RaftConfig.enableLoop peers.length (fun _ => true)
        (fun j => peers[j]?.bind fun k => cfg.endname (pair k).1 (pair k).2) enabled cfg.net := by
    refine forLoop_congr ?_ _
    intro j _ hj net
    rw [htest j hj, Option.bind_some]
  have hdef : ∀ j < peers.length, (fun _ : ℕ => true) j = true →
      (peers[j]?.bind fun k => cfg.endname (pair k).1 (pair k).2).isSome := by
    intro j hj _
    have hk := hpair peers[j] (List.getElem_mem hj)
    simpa [List.getElem?_eq_getElem hj] using hr.endname_isSome hk.1 hk.2
  obtain ⟨net, hnet, hset⟩ := RaftConfig.enableLoop_spec enabled cfg.net hdef
  -- the ends of the loop, by server instead of by position
  have hends : ∀ e, (∃ j < peers.length, true = true ∧
      (peers[j]?.bind fun k => cfg.endname (pair k).1 (pair k).2) = some e) ↔
      ∃ k ∈ peers, cfg.endname (pair k).1 (pair k).2 = some e := by
    intro e
    constructor
    · rintro ⟨j, hj, -, he⟩
      rw [List.getElem?_eq_getElem hj] at he
      exact ⟨peers[j], List.getElem_mem hj, he⟩
    · rintro ⟨k, hk, he⟩
      obtain ⟨j, hj, rfl⟩ := List.mem_iff_getElem.mp hk
      exact ⟨j, hj, rfl, by rw [List.getElem?_eq_getElem hj]; exact he⟩
  refine ⟨net, hloop.trans hnet, ⟨rfl, rfl, hset.ends⟩, ?_, ?_⟩
  · funext a b
    show (cfg.endname a b).map net.enabled = _
    by_cases hab : (a, b) ∈ peers.map pair
    · rw [if_pos hab]
      obtain ⟨k, hk, hkab⟩ := List.mem_map.mp hab
      have hlt := hpair k hk
      rw [hkab] at hlt
      obtain ⟨e, he⟩ := Option.isSome_iff_exists.mp (hr.endname_isSome hlt.1 hlt.2)
      rw [he, Option.map_some, hset.on e ((hends e).mpr ⟨k, hk, by rw [hkab]; exact he⟩)]
    · rw [if_neg hab]
      refine Option.map_congr fun e he => hset.off e ?_
      rw [hends]
      rintro ⟨k, hk, hke⟩
      -- two places with one name are one place
      obtain ⟨h1, h2⟩ := hr.named.inj _ _ _ _ e hke he
      exact hab (List.mem_map.mpr ⟨k, hk, Prod.ext h1 h2⟩)
  · intro e he
    refine hset.off e ?_
    rw [hends]
    rintro ⟨k, -, hke⟩
    exact he _ _ hke

/-- The outgoing ends and then the incoming ones are a `cross` of the table. -/
theorem Ready.cross_spec {n : ℕ} {cfg : Config E S} (hr : Ready n cfg) {i : ℕ} (hi : i < n)
    {peers : List ℕ} (hpeers : ∀ k ∈ peers, k < n) {out inc : ℕ → Option Bool}
    (hout : ∀ j < peers.length, out j = some true) (hinc : ∀ j < peers.length, inc j = some true)
    (enabled : Bool) :
    ∃ mid net, enableEnds peers.length out (fun j => peers[j]?.bind fun k => cfg.endname i k)
        enabled cfg.net = some mid ∧
      enableEnds peers.length inc (fun j => peers[j]?.bind fun k => cfg.endname k i)
        enabled mid = some net ∧
      Rewired cfg { cfg with net := net } (cross i peers (some enabled) cfg.status) := by
  obtain ⟨mid, hmid, hrow⟩ := hr.enableEnds_spec hout (fun k => (i, k))
    (fun k hk => ⟨hi, hpeers k hk⟩) enabled
  obtain ⟨net, hnet, hcol⟩ := (hr.same hrow.same).enableEnds_spec hinc (fun k => (k, i))
    (fun k hk => ⟨hpeers k hk, hi⟩) enabled
  refine ⟨mid, net, hmid, hnet, hrow.same.trans hcol.same, ?_, (hrow.trans hcol).other⟩
  rw [hrow.status] at hcol
  refine hcol.status.trans ?_
  funext a b
  have hmem : (a, b) ∈ peers.map (fun k => (k, i)) ↔ b = i ∧ a ∈ peers := by
    simp [eq_comm, and_comm]
  have hmem' : (a, b) ∈ peers.map (fun k => (i, k)) ↔ a = i ∧ b ∈ peers := by
    simp [eq_comm, and_comm]
  unfold cross
  simp only [hmem, hmem']
  grind

/-- `connectUnlocked` succeeds for servers that exist. -/
theorem Ready.connectUnlocked {n : ℕ} {cfg : Config E S} (hr : Ready n cfg) {i : ℕ} (hi : i < n)
    {peers : List ℕ} (hpeers : ∀ k ∈ peers, k < n) :
    ∃ cfg', cfg.connectUnlocked i peers = some cfg' ∧
      Rewired cfg cfg' (cross i peers (some true) cfg.status) := by
  obtain ⟨mid, net, hmid, hnet, hwire⟩ :=
    hr.cross_spec hi hpeers (fun _ _ => rfl) (fun _ _ => rfl) true
  refine ⟨{ cfg with net := net }, ?_, hwire⟩
  unfold Config.connectUnlocked
  simp only [hmid, hnet, Option.bind_some]

/-- `disconnectUnlocked` succeeds for servers that exist if no more are listed than there
are: the test goes by the position in the list. -/
theorem Ready.disconnectUnlocked {n : ℕ} {cfg : Config E S} (hr : Ready n cfg) {i : ℕ}
    (hi : i < n) {peers : List ℕ} (hpeers : ∀ k ∈ peers, k < n) (hlen : peers.length ≤ n) :
    ∃ cfg', cfg.disconnectUnlocked i peers = some cfg' ∧
      Rewired cfg cfg' (cross i peers (some false) cfg.status) := by
  obtain ⟨mid, net, hmid, hnet, hwire⟩ := hr.cross_spec hi hpeers (fun _ _ => hr.row_isSome hi)
    (fun j hj => hr.row_isSome (Nat.lt_of_lt_of_le hj hlen)) false
  refine ⟨{ cfg with net := net }, ?_, hwire⟩
  unfold Config.disconnectUnlocked
  simp only [hmid, hnet, Option.bind_some]

/-- A loop of `partition` is a loop of `join`s. -/
theorem Ready.partitionLoop {n : ℕ} {cfg : Config E S} (hr : Ready n cfg) {mine theirs : List ℕ}
    (hmine : ∀ k ∈ mine, k < n) (htheirs : ∀ k ∈ theirs, k < n) (hlen : theirs.length ≤ n) :
    ∃ cfg', cfg.partitionLoop mine theirs = some cfg' ∧
      Rewired cfg cfg' (mine.foldl (join mine theirs (some true) (some false)) cfg.status) := by
  have hloop : ∃ cfg', cfg.partitionLoop mine theirs = some cfg' ∧ Rewired cfg cfg'
      ((mine.take mine.length).foldl (join mine theirs (some true) (some false)) cfg.status) := by
    refine forLoop_rule_one (fun k (t : Config E S) => Rewired cfg t
        ((mine.take k).foldl (join mine theirs (some true) (some false)) cfg.status))
      (Nat.zero_le mine.length) ⟨SameNames.refl cfg, rfl, fun _ _ => rfl⟩ ?_
    intro k t _ hk ht
    have hr' := hr.same ht.same
    have hmem := hmine mine[k] (List.getElem_mem hk)
    obtain ⟨u, hu, hwire⟩ := hr'.disconnectUnlocked hmem htheirs hlen
    obtain ⟨v, hv, hwire'⟩ := (hr'.same hwire.same).connectUnlocked hmem hmine
    refine ⟨v, ?_, ?_⟩
    · rw [List.getElem?_eq_getElem hk, Option.bind_some, hu, Option.bind_some, hv]
    · rw [List.take_succ_eq_append_getElem hk, List.foldl_append, ← ht.status]
      rw [hwire.status] at hwire'
      exact (ht.trans hwire).trans hwire'
  rwa [List.take_length] at hloop

/-- A list without repetitions of numbers below `n` is no longer than `n`. -/
theorem length_le_of_nodup {n : ℕ} {l : List ℕ} (hl : ∀ k ∈ l, k < n) (hnodup : l.Nodup) :
    l.length ≤ n := by
  have hsub : l ⊆ List.range n := fun k hk => List.mem_range.mpr (hl k hk)
  simpa using (hnodup.subperm hsub).length_le

/-- **`partition` separates the two groups in the table.** -/
theorem Ready.partition {n : ℕ} {cfg : Config E S} (hr : Ready n cfg) {p1 p2 : List ℕ}
    (h1 : ∀ k ∈ p1, k < n) (h2 : ∀ k ∈ p2, k < n) (hn1 : p1.Nodup) (hn2 : p2.Nodup) :
    ∃ cfg', cfg.partition p1 p2 = some cfg' ∧
      Rewired cfg cfg' (separate p1 p2 (some true) (some false) cfg.status) := by
  obtain ⟨mid, hmid, hwire⟩ := hr.partitionLoop h1 h2 (length_le_of_nodup h2 hn2)
  obtain ⟨cfg', hcfg', hwire'⟩ :=
    (hr.same hwire.same).partitionLoop h2 h1 (length_le_of_nodup h1 hn1)
  refine ⟨cfg', ?_, ?_⟩
  · unfold Config.partition
    rw [hmid, Option.bind_some, hcfg']
  · rw [hwire.status] at hwire'
    exact hwire.trans hwire'

/-! ## §6. The groups after `partition`. -/

/-- **`partition` makes the two groups**: from `make_config`, after any sequence of
operations, it succeeds on any two disjoint lists of different servers; it enables the ends
inside of each list, disables those from the one to the other in both directions, and keeps
the names of all ends and the status of every end that touches a server in neither list. -/
theorem partition_separates {n : ℕ} {cfg : Config E S}
    (h : (configSystem E S n).Reachable cfg) {p1 p2 : List ℕ} (h1 : ∀ k ∈ p1, k < n)
    (h2 : ∀ k ∈ p2, k < n) (hn1 : p1.Nodup) (hn2 : p2.Nodup) (hd : p1.Disjoint p2) :
    ∃ cfg', cfg.partition p1 p2 = some cfg' ∧ cfg'.endname = cfg.endname ∧
      (∀ a b, (a ∈ p1 ∧ b ∈ p1) ∨ (a ∈ p2 ∧ b ∈ p2) → cfg'.status a b = some true) ∧
      (∀ a b, (a ∈ p1 ∧ b ∈ p2) ∨ (a ∈ p2 ∧ b ∈ p1) → cfg'.status a b = some false) ∧
      (∀ a b, (a ∉ p1 ∧ a ∉ p2) ∨ (b ∉ p1 ∧ b ∉ p2) → cfg'.status a b = cfg.status a b) ∧
      ∀ e, (∀ a b, cfg.endname a b ≠ some e) → cfg'.net.enabled e = cfg.net.enabled e := by
  obtain ⟨cfg', hpart, hwire⟩ := (Ready.reachable h).partition h1 h2 hn1 hn2
  have happly := separate_apply hd (some true) (some false) cfg.status
  refine ⟨cfg', hpart, hwire.same.endname, ?_, ?_, ?_, hwire.other⟩
  · intro a b hab
    rw [hwire.status, happly, if_pos hab]
  · intro a b hab
    rw [hwire.status, happly, if_neg, if_pos hab]
    -- a server in both lists would contradict that they are disjoint
    rintro (⟨ha, hb⟩ | ⟨ha, hb⟩)
    · exact hab.elim (fun h => hd hb h.2) (fun h => hd ha h.1)
    · exact hab.elim (fun h => hd h.1 ha) (fun h => hd h.2 hb)
  · intro a b hab
    rw [hwire.status, happly, if_neg, if_neg]
    · tauto
    · tauto

/-- Four servers: a group of two, a group of one, and a server in neither. -/
theorem partition_separates_four : ∃ cfg cfg' : Config (ℕ × ℕ) Unit,
    (configSystem (ℕ × ℕ) Unit 4).Reachable cfg ∧ cfg.partition [0, 2] [1] = some cfg' ∧
      cfg'.status 0 2 = some true ∧ cfg'.status 2 1 = some false ∧ cfg'.status 1 0 = some false ∧
      cfg'.status 2 3 = cfg.status 2 3 := by
  have hmake : (makeConfig 4 false (fun i j : ℕ => (i, j)) (fun _ => ())).isSome = true := by
    decide
  obtain ⟨cfg, hcfg⟩ := Option.isSome_iff_exists.mp hmake
  have hreach : (configSystem (ℕ × ℕ) Unit 4).Reachable cfg :=
    System.Reachable.of_init ⟨false, _, _, hcfg⟩
  obtain ⟨cfg', hpart, -, hin, hacross, hout, -⟩ :=
    @partition_separates (ℕ × ℕ) Unit _ 4 cfg hreach [0, 2] [1] (by simp) (by simp) (by simp)
      (by simp) (by simp)
  exact ⟨cfg, cfg', hreach, hpart, hin 0 2 (by simp), hacross 2 1 (by simp),
    hacross 1 0 (by simp), hout 2 3 (by simp)⟩

end ComputerScience.Kvraft
