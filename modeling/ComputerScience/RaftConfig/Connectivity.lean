/-
  ComputerScience.RaftConfig.Connectivity
  ───────────────────────────────────────
  **WHO CAN TALK TO WHOM IN THE RAFT TESTS** (`raft/config.go`).

  The tester keeps the connectivity of its `n` servers twice: in the flags `connected`
  and in the `n × n` ends of the network, of which `endnames[i][j]` is the one server `i`
  uses to reach server `j`.  `connect` and `disconnect` go over a row and a column;
  `start1` gives a server a new row of ends, so that the instance it replaces cannot send
  any more.

  The Raft instances, persisters and logs that `crash1` and `start1` also handle do not
  reach the network and are left out.  `none` is a panic or a `log.Fatalf`.

  Main results:
    • `Wired.connect`, `Wired.disconnect`, `Wired.crash1`, `Wired.start1` — each operation
      succeeds and keeps the two views in step,
    • `connectivity_agrees` — whole runs from `make_config`.
-/
import ComputerScience.Labrpc.Network
import ComputerScience.Lib.Loop

namespace ComputerScience.RaftConfig

open ComputerScience.Lib ComputerScience.Labrpc

/-! ## §1. The configuration and its operations. -/

/-- The fields of `config` that decide who can talk to whom.  Servers are named by their
number; `E` are the end names and `S` the server objects. -/
structure Config (E S : Type) where
  n : ℕ
  net : Registry E ℕ S
  connected : ℕ → Bool
  /-- Row `i` is nil until server `i` is started. -/
  endnames : ℕ → Option (ℕ → E)

variable {E S : Type} [DecidableEq E]

/-- An operation on the network, which may be fatal. -/
def call (o : NetOp E ℕ S) (net : Registry E ℕ S) : Option (Registry E ℕ S) :=
  if o.fatal net then none else some (o.apply net)

/-- `cfg.endnames[i][j]`; a nil row panics. -/
def Config.endname (cfg : Config E S) (i j : ℕ) : Option E :=
  (cfg.endnames i).map fun row => row j

/-- `cfg.net.Enable(endname, enabled)` for the `j` of the loop that pass the test. -/
def enableLoop (n : ℕ) (test : ℕ → Bool) (endname : ℕ → Option E) (enabled : Bool)
    (net : Registry E ℕ S) : Option (Registry E ℕ S) :=
  forLoop 0 n 1 (fun j net =>
    if test j then (endname j).bind fun e => call (.enable e enabled) net else some net) net

/-- Attach server `i` to the net. -/
def Config.connect (cfg : Config E S) (i : ℕ) : Option (Config E S) :=
  let connected := Function.update cfg.connected i true
  -- outgoing ends, then incoming ends
  (enableLoop cfg.n connected (fun j => cfg.endname i j) true cfg.net).bind fun net =>
    (enableLoop cfg.n connected (fun j => cfg.endname j i) true net).bind fun net =>
      some { cfg with connected := connected, net := net }

/-- Detach server `i` from the net. -/
def Config.disconnect (cfg : Config E S) (i : ℕ) : Option (Config E S) :=
  let connected := Function.update cfg.connected i false
  (enableLoop cfg.n (fun _ => (cfg.endnames i).isSome) (fun j => cfg.endname i j) false
      cfg.net).bind fun net =>
    (enableLoop cfg.n (fun j => (cfg.endnames j).isSome) (fun j => cfg.endname j i) false
        net).bind fun net =>
      some { cfg with connected := connected, net := net }

/-- Shut down server `i`. -/
def Config.crash1 (cfg : Config E S) (i : ℕ) : Option (Config E S) :=
  (cfg.disconnect i).bind fun cfg =>
    (call (.deleteServer i) cfg.net).bind fun net => some { cfg with net := net }

/-- Start or re-start server `i`, with the names `randstring` gives and the new server
object. -/
def Config.start1 (cfg : Config E S) (i : ℕ) (names : ℕ → E) (srv : S) : Option (Config E S) :=
  (cfg.crash1 i).bind fun cfg =>
    (forLoop 0 cfg.n 1 (fun j net =>
        (call (.makeEnd (names j)) net).bind (call (.connect (names j) (some j))))
      cfg.net).bind fun net =>
        (call (.addServer i srv) net).bind fun net =>
          some { cfg with endnames := Function.update cfg.endnames i (some names), net := net }

/-- The configuration before the first loop of `make_config`. -/
def Config.blank (n : ℕ) (unreliable : Bool) : Config E S where
  n := n
  net := NetOp.apply (NetOp.apply .make (.reliable (!unreliable))) (.longDelays true)
  connected _ := false
  endnames _ := none

/-- `make_config`: start all servers, then connect all of them. -/
def makeConfig (n : ℕ) (unreliable : Bool) (names : ℕ → ℕ → E) (srv : ℕ → S) :
    Option (Config E S) :=
  (forLoop 0 n 1 (fun i cfg => Config.start1 cfg i (names i) (srv i)) (.blank n unreliable)).bind
    (forLoop 0 n 1 (fun i cfg => Config.connect cfg i))

/-- The operations of a test. -/
inductive ConfigOp (E S : Type) where
  | start1 (i : ℕ) (names : ℕ → E) (srv : S)
  | crash1 (i : ℕ)
  | connect (i : ℕ)
  | disconnect (i : ℕ)

/-- The server it is about. -/
def ConfigOp.server : ConfigOp E S → ℕ
  | .start1 i _ _ | .crash1 i | .connect i | .disconnect i => i

/-- What it leaves in `connected[i]`. -/
def ConfigOp.connects : ConfigOp E S → Bool
  | .connect _ => true
  | .start1 _ _ _ | .crash1 _ | .disconnect _ => false

def ConfigOp.apply (cfg : Config E S) : ConfigOp E S → Option (Config E S)
  | .start1 i names srv => cfg.start1 i names srv
  | .crash1 i => cfg.crash1 i
  | .connect i => cfg.connect i
  | .disconnect i => cfg.disconnect i

/-- The names are new and differ from each other. -/
def Fresh (cfg : Config E S) (names : ℕ → E) : Prop :=
  (∀ j < cfg.n, cfg.net.ends (names j) = false) ∧
    ∀ j < cfg.n, ∀ k < cfg.n, names j = names k → j = k

/-- `randstring` never repeats a name. -/
def ConfigOp.Fresh (cfg : Config E S) : ConfigOp E S → Prop
  | .start1 _ names _ => RaftConfig.Fresh cfg names
  | _ => True

/-- The names of `make_config` do not repeat. -/
def Distinct (n : ℕ) (names : ℕ → ℕ → E) : Prop :=
  ∀ i < n, ∀ j < n, ∀ i' < n, ∀ j' < n, names i j = names i' j' → i = i' ∧ j = j'

/-- The runs of a test with `n` servers: from `make_config`, any sequence of operations. -/
def configSystem (E S : Type) [DecidableEq E] (n : ℕ) : System (Config E S) where
  init cfg := ∃ unreliable names srv,
    Distinct n names ∧ makeConfig n unreliable names srv = some cfg
  step cfg cfg' := ∃ op : ConfigOp E S, op.server < cfg.n ∧ op.Fresh cfg ∧
    op.apply cfg = some cfg'

/-! ## §2. One loop over ends. -/

/-- `net'` is `net` after the ends in `P` were set to `enabled`. -/
structure SetTo (P : E → Prop) (enabled : Bool) (net net' : Registry E ℕ S) : Prop where
  ends : net'.ends = net.ends
  on : ∀ e, P e → net'.enabled e = enabled
  off : ∀ e, ¬ P e → net'.enabled e = net.enabled e

theorem enableLoop_spec {n : ℕ} {test : ℕ → Bool} {endname : ℕ → Option E} (enabled : Bool)
    (net : Registry E ℕ S) (hdef : ∀ j < n, test j = true → (endname j).isSome) :
    ∃ net', enableLoop n test endname enabled net = some net' ∧
      SetTo (fun e => ∃ j < n, test j = true ∧ endname j = some e) enabled net net' := by
  refine forLoop_rule_one
    (fun k => SetTo (fun e => ∃ j < k, test j = true ∧ endname j = some e) enabled net)
    (Nat.zero_le n) ⟨rfl, ?_, fun _ _ => rfl⟩ ?_
  · rintro e ⟨j, hj, _⟩
    omega
  intro k t _ hk ht
  by_cases htest : test k = true
  · obtain ⟨e, he⟩ := Option.isSome_iff_exists.mp (hdef k hk htest)
    refine ⟨NetOp.apply t (.enable e enabled), ?_, ht.ends, ?_, ?_⟩
    · simp only [htest, he, if_true]
      rfl
    · rintro e' ⟨j, hj, hj'⟩
      show Function.update t.enabled e enabled e' = enabled
      by_cases hee : e' = e
      · rw [hee, Function.update_self]
      · rw [Function.update_of_ne hee]
        refine ht.on e' ⟨j, ?_, hj'⟩
        have hjk : j ≠ k := by
          rintro rfl
          rw [he] at hj'
          exact hee (Option.some.inj hj'.2).symm
        omega
    · intro e' hnot
      have hee : e' ≠ e := by
        rintro rfl
        exact hnot ⟨k, by omega, htest, he⟩
      show Function.update t.enabled e enabled e' = net.enabled e'
      rw [Function.update_of_ne hee]
      refine ht.off e' fun hin => hnot ?_
      obtain ⟨j, hj, hj'⟩ := hin
      exact ⟨j, by omega, hj'⟩
  · -- the test fails: this turn leaves the network
    refine ⟨t, by simp [htest], ht.ends, ?_, ?_⟩
    · rintro e ⟨j, hj, hj'⟩
      have hjk : j ≠ k := by
        rintro rfl
        exact htest hj'.1
      exact ht.on e ⟨j, by omega, hj'⟩
    · intro e hnot
      refine ht.off e fun hin => hnot ?_
      obtain ⟨j, hj, hj'⟩ := hin
      exact ⟨j, by omega, hj'⟩

/-! ## §3. The two views of the connectivity. -/

/-- **The invariant**: the current ends are distinct, exist, and are enabled exactly
between connected servers; every other end that exists is disabled. -/
structure Wired (cfg : Config E S) : Prop where
  /-- A server that was never started is not connected. -/
  started : ∀ i < cfg.n, cfg.connected i = true → (cfg.endnames i).isSome
  exists_end : ∀ i < cfg.n, ∀ j < cfg.n, ∀ e, cfg.endname i j = some e → cfg.net.ends e = true
  inj : ∀ i < cfg.n, ∀ j < cfg.n, ∀ i' < cfg.n, ∀ j' < cfg.n, ∀ e,
    cfg.endname i j = some e → cfg.endname i' j' = some e → i = i' ∧ j = j'
  agree : ∀ i < cfg.n, ∀ j < cfg.n, ∀ e, cfg.endname i j = some e →
    (cfg.net.enabled e = true ↔ cfg.connected i = true ∧ cfg.connected j = true)
  replaced : ∀ e, cfg.net.ends e = true →
    (∀ i < cfg.n, ∀ j < cfg.n, cfg.endname i j ≠ some e) → cfg.net.enabled e = false

/-- The row and the column of server `i` set to `enabled` where the tests allow. -/
theorem Wired.cross {cfg : Config E S} (hw : Wired cfg) {i : ℕ} (hi : i < cfg.n)
    (out inc : ℕ → Bool) (enabled : Bool)
    (hout : ∀ j < cfg.n, out j = true → (cfg.endname i j).isSome)
    (hinc : ∀ j < cfg.n, inc j = true → (cfg.endname j i).isSome) :
    ∃ net mid, enableLoop cfg.n out (fun j => cfg.endname i j) enabled cfg.net = some mid ∧
      enableLoop cfg.n inc (fun j => cfg.endname j i) enabled mid = some net ∧
      net.ends = cfg.net.ends ∧
      (∀ e, (∀ a < cfg.n, ∀ b < cfg.n, cfg.endname a b ≠ some e) →
        net.enabled e = cfg.net.enabled e) ∧
      ∀ a < cfg.n, ∀ b < cfg.n, ∀ e, cfg.endname a b = some e →
        net.enabled e = if (a = i ∧ out b = true) ∨ (b = i ∧ inc a = true) then enabled
          else cfg.net.enabled e := by
  obtain ⟨mid, hmid, hset⟩ := enableLoop_spec enabled cfg.net hout
  obtain ⟨net, hnet, hset'⟩ := enableLoop_spec enabled mid hinc
  refine ⟨net, mid, hmid, hnet, hset'.ends.trans hset.ends, ?_, ?_⟩
  · intro e hnone
    rw [hset'.off e, hset.off e]
    · rintro ⟨j, hj, _, he⟩
      exact hnone i hi j hj he
    · rintro ⟨j, hj, _, he⟩
      exact hnone j hj i hi he
  · intro a ha b hb e he
    -- by `inj`, an end of the row is `endname i b` and an end of the column `endname a i`
    have hrow : (∃ j < cfg.n, out j = true ∧ cfg.endname i j = some e) ↔
        a = i ∧ out b = true := by
      constructor
      · rintro ⟨j, hj, htest, he'⟩
        obtain ⟨rfl, rfl⟩ := hw.inj a ha b hb i hi j hj e he he'
        exact ⟨rfl, htest⟩
      · rintro ⟨rfl, htest⟩
        exact ⟨b, hb, htest, he⟩
    have hcol : (∃ j < cfg.n, inc j = true ∧ cfg.endname j i = some e) ↔
        b = i ∧ inc a = true := by
      constructor
      · rintro ⟨j, hj, htest, he'⟩
        obtain ⟨rfl, rfl⟩ := hw.inj a ha b hb j hj i hi e he he'
        exact ⟨rfl, htest⟩
      · rintro ⟨rfl, htest⟩
        exact ⟨a, ha, htest, he⟩
    by_cases hc : b = i ∧ inc a = true
    · rw [if_pos (Or.inr hc)]
      exact hset'.on e (hcol.mpr hc)
    · rw [hset'.off e (fun h => hc (hcol.mp h))]
      by_cases hr : a = i ∧ out b = true
      · rw [if_pos (Or.inl hr)]
        exact hset.on e (hrow.mpr hr)
      · rw [if_neg (fun h => h.elim hr hc)]
        exact hset.off e (fun h => hr (hrow.mp h))

/-! ## §4. The four operations. -/

omit [DecidableEq E] in
theorem Config.endname_isSome (cfg : Config E S) (i j : ℕ) :
    (cfg.endname i j).isSome = (cfg.endnames i).isSome := by
  unfold Config.endname
  rw [Option.isSome_map]

/-- What an operation on a row and a column leaves alone. -/
structure SameNames (cfg cfg' : Config E S) : Prop where
  n : cfg'.n = cfg.n
  endnames : cfg'.endnames = cfg.endnames
  ends : cfg'.net.ends = cfg.net.ends

omit [DecidableEq E] in
/-- New flags and a network that agrees with them on the current ends. -/
theorem Wired.rewire {cfg : Config E S} (hw : Wired cfg) {net : Registry E ℕ S}
    {connected : ℕ → Bool}
    (hstarted : ∀ i < cfg.n, connected i = true → (cfg.endnames i).isSome)
    (hends : net.ends = cfg.net.ends)
    (hother : ∀ e, (∀ a < cfg.n, ∀ b < cfg.n, cfg.endname a b ≠ some e) →
      net.enabled e = cfg.net.enabled e)
    (hagree : ∀ a < cfg.n, ∀ b < cfg.n, ∀ e, cfg.endname a b = some e →
      (net.enabled e = true ↔ connected a = true ∧ connected b = true)) :
    Wired { cfg with connected := connected, net := net } := by
  refine ⟨hstarted, ?_, hw.inj, hagree, ?_⟩
  · intro a ha b hb e he
    show net.ends e = true
    rw [hends]
    exact hw.exists_end a ha b hb e he
  · intro e he hnone
    show net.enabled e = false
    rw [hother e hnone]
    exact hw.replaced e (by rw [← hends]; exact he) hnone

theorem Wired.connect {cfg : Config E S} (hw : Wired cfg) {i : ℕ} (hi : i < cfg.n)
    (hrow : (cfg.endnames i).isSome) :
    ∃ cfg', cfg.connect i = some cfg' ∧ Wired cfg' ∧ SameNames cfg cfg' ∧
      cfg'.connected = Function.update cfg.connected i true := by
  have hstarted : ∀ j < cfg.n, Function.update cfg.connected i true j = true →
      (cfg.endnames j).isSome := by
    intro j hj hconn
    by_cases hji : j = i
    · rw [hji]
      exact hrow
    · rw [Function.update_of_ne hji] at hconn
      exact hw.started j hj hconn
  obtain ⟨net, mid, hmid, hnet, hends, hother, hcross⟩ := hw.cross hi
    (Function.update cfg.connected i true) (Function.update cfg.connected i true) true
    (fun j _ _ => by rw [cfg.endname_isSome]; exact hrow)
    (fun j hj h => by rw [cfg.endname_isSome]; exact hstarted j hj h)
  refine ⟨{ cfg with connected := Function.update cfg.connected i true, net := net }, ?_,
    hw.rewire hstarted hends hother ?_, ⟨rfl, rfl, hends⟩, rfl⟩
  · unfold Config.connect
    simp only [hmid, hnet, Option.bind_some]
  · intro a ha b hb e he
    have hold := hw.agree a ha b hb e he
    rw [hcross a ha b hb e he]
    -- an end of the row or the column of `i` follows the other server's flag
    by_cases hai : a = i <;> by_cases hbi : b = i <;> simp [hai, hbi] at hold ⊢ <;> grind

theorem Wired.disconnect {cfg : Config E S} (hw : Wired cfg) {i : ℕ} (hi : i < cfg.n) :
    ∃ cfg', cfg.disconnect i = some cfg' ∧ Wired cfg' ∧ SameNames cfg cfg' ∧
      cfg'.connected = Function.update cfg.connected i false := by
  have hstarted : ∀ j < cfg.n, Function.update cfg.connected i false j = true →
      (cfg.endnames j).isSome := by
    intro j hj hconn
    by_cases hji : j = i
    · rw [hji, Function.update_self] at hconn
      cases hconn
    · rw [Function.update_of_ne hji] at hconn
      exact hw.started j hj hconn
  obtain ⟨net, mid, hmid, hnet, hends, hother, hcross⟩ := hw.cross hi
    (fun _ => (cfg.endnames i).isSome) (fun j => (cfg.endnames j).isSome) false
    (fun j _ h => by rw [cfg.endname_isSome]; exact h)
    (fun j _ h => by rw [cfg.endname_isSome]; exact h)
  refine ⟨{ cfg with connected := Function.update cfg.connected i false, net := net }, ?_,
    hw.rewire hstarted hends hother ?_, ⟨rfl, rfl, hends⟩, rfl⟩
  · unfold Config.disconnect
    simp only [hmid, hnet, Option.bind_some]
  · intro a ha b hb e he
    -- the row of an existing end exists, so the tests of both loops hold for it
    have hsome : (cfg.endnames a).isSome = true := by
      rw [← cfg.endname_isSome a b, he]
      rfl
    have hold := hw.agree a ha b hb e he
    rw [hcross a ha b hb e he]
    by_cases hai : a = i <;> by_cases hbi : b = i <;> simp [hai, hbi] at hold hsome ⊢ <;> grind

/-- `crash1` is `disconnect` for the ends; the server object goes. -/
theorem Wired.crash1 {cfg : Config E S} (hw : Wired cfg) {i : ℕ} (hi : i < cfg.n) :
    ∃ cfg', cfg.crash1 i = some cfg' ∧ Wired cfg' ∧ SameNames cfg cfg' ∧
      cfg'.connected = Function.update cfg.connected i false := by
  obtain ⟨mid, hmid, hw', hsame, hconn⟩ := hw.disconnect hi
  refine ⟨{ mid with net := NetOp.apply mid.net (.deleteServer i) }, ?_, ?_, ?_, hconn⟩
  · unfold Config.crash1
    rw [hmid]
    rfl
  · exact ⟨hw'.started, hw'.exists_end, hw'.inj, hw'.agree, hw'.replaced⟩
  · exact ⟨hsame.n, hsame.endnames, hsame.ends⟩

/-- The ends after one more name was made. -/
theorem ends_update {old ends : E → Bool} {names : ℕ → E} {k : ℕ}
    (h : ∀ e, ends e = true ↔ old e = true ∨ ∃ j < k, names j = e) (e : E) :
    Function.update ends (names k) true e = true ↔ old e = true ∨ ∃ j < k + 1, names j = e := by
  by_cases hek : e = names k
  · rw [hek, Function.update_self]
    exact iff_of_true rfl (Or.inr ⟨k, by omega, rfl⟩)
  · rw [Function.update_of_ne hek, h e]
    constructor
    · rintro (hold | ⟨j, hj, he⟩)
      · exact Or.inl hold
      · exact Or.inr ⟨j, by omega, he⟩
    · rintro (hold | ⟨j, hj, he⟩)
      · exact Or.inl hold
      · have hjk : j ≠ k := by
          rintro rfl
          exact hek he.symm
        exact Or.inr ⟨j, by omega, he⟩

/-- The loop of `MakeEnd` and `Connect` over new names. -/
theorem makeEnds_spec {n : ℕ} {names : ℕ → E} (net : Registry E ℕ S)
    (hnew : ∀ j < n, net.ends (names j) = false)
    (hinj : ∀ j < n, ∀ k < n, names j = names k → j = k) :
    ∃ net', forLoop 0 n 1 (fun j net =>
        (call (.makeEnd (names j)) net).bind (call (.connect (names j) (some j)))) net = some net' ∧
      (∀ e, net'.ends e = true ↔ net.ends e = true ∨ ∃ j < n, names j = e) ∧
      (∀ j < n, net'.enabled (names j) = false) ∧
      ∀ e, (∀ j < n, names j ≠ e) → net'.enabled e = net.enabled e := by
  refine forLoop_rule_one (fun k (t : Registry E ℕ S) =>
      (∀ e, t.ends e = true ↔ net.ends e = true ∨ ∃ j < k, names j = e) ∧
      (∀ j < k, t.enabled (names j) = false) ∧
      ∀ e, (∀ j < k, names j ≠ e) → t.enabled e = net.enabled e)
    (Nat.zero_le n) ⟨by simp, fun j hj => by omega, fun _ _ => rfl⟩ ?_
  rintro k t _ hk ⟨hends, hoff, hother⟩
  have hfatal : t.ends (names k) = false := by
    by_contra hmade
    rcases (hends (names k)).mp (by simpa using hmade) with hold | ⟨j, hj, hjk⟩
    · rw [hnew k hk] at hold
      cases hold
    · have := hinj j (by omega) k hk hjk
      omega
  refine ⟨NetOp.apply (NetOp.apply t (.makeEnd (names k))) (.connect (names k) (some k)),
    ?_, ?_, ?_, ?_⟩
  · simp [call, NetOp.fatal, hfatal]
  · exact ends_update hends
  · intro j hj
    show Function.update t.enabled (names k) false (names j) = false
    by_cases hjk : names j = names k
    · rw [hjk, Function.update_self]
    · rw [Function.update_of_ne hjk]
      refine hoff j ?_
      have : j ≠ k := fun h => hjk (by rw [h])
      omega
  · intro e hne
    show Function.update t.enabled (names k) false e = net.enabled e
    rw [Function.update_of_ne (fun h => hne k (by omega) h.symm)]
    exact hother e fun j hj => hne j (by omega)

omit [DecidableEq E] in
/-- The end names after row `i` was replaced. -/
theorem endname_update (cfg : Config E S) (i : ℕ) (names : ℕ → E) (a b : ℕ) :
    ((Function.update cfg.endnames i (some names)) a).map (fun row => row b) =
      if a = i then some (names b) else cfg.endname a b := by
  by_cases ha : a = i
  · rw [if_pos ha, ha, Function.update_self]
    rfl
  · rw [if_neg ha, Function.update_of_ne ha]
    rfl

omit [DecidableEq E] in
/-- The ends of the row of a server that is not connected are disabled, and so are those
in no row. -/
theorem Wired.disabled {cfg : Config E S} (hw : Wired cfg) {i : ℕ} (hi : i < cfg.n)
    (hoff : cfg.connected i = false) {e : E} (hmade : cfg.net.ends e = true)
    (hnone : ∀ a < cfg.n, a ≠ i → ∀ b < cfg.n, cfg.endname a b ≠ some e) :
    cfg.net.enabled e = false := by
  by_cases hrow : ∃ b < cfg.n, cfg.endname i b = some e
  · obtain ⟨b, hb, hib⟩ := hrow
    have hagree := hw.agree i hi b hb e hib
    rw [hoff] at hagree
    simpa using hagree
  · apply hw.replaced e hmade
    intro a ha b hb hab
    by_cases hai : a = i
    · subst hai
      exact hrow ⟨b, hb, hab⟩
    · exact hnone a ha hai b hb hab

omit [DecidableEq E] in
/-- A row of new, disabled ends for a server that is not connected; the ends of the row it
replaces are disabled already. -/
theorem Wired.newRow {cfg : Config E S} (hw : Wired cfg) {i : ℕ} (hi : i < cfg.n)
    (hoff : cfg.connected i = false) {names : ℕ → E} (hfresh : Fresh cfg names)
    {net : Registry E ℕ S}
    (hends : ∀ e, net.ends e = true ↔ cfg.net.ends e = true ∨ ∃ j < cfg.n, names j = e)
    (hnew : ∀ j < cfg.n, net.enabled (names j) = false)
    (hold : ∀ e, (∀ j < cfg.n, names j ≠ e) → net.enabled e = cfg.net.enabled e) :
    Wired { cfg with endnames := Function.update cfg.endnames i (some names), net := net } := by
  have hname := endname_update cfg i names
  -- a name that was in use is not one of the new ones
  have hused : ∀ e, cfg.net.ends e = true → ∀ j < cfg.n, names j ≠ e := by
    rintro e he j hj rfl
    rw [hfresh.1 j hj] at he
    cases he
  refine ⟨?_, ?_, ?_, ?_, ?_⟩
  · intro j hj hconn
    by_cases hji : j = i
    · rw [hji]
      simp
    · show (Function.update cfg.endnames i (some names) j).isSome = true
      rw [Function.update_of_ne hji]
      exact hw.started j hj hconn
  · intro a ha b hb e he
    show net.ends e = true
    rw [hends]
    replace he : _ = some e := (hname a b).symm.trans he
    split at he
    next => exact Or.inr ⟨b, hb, Option.some.inj he⟩
    next => exact Or.inl (hw.exists_end a ha b hb e he)
  · intro a ha b hb a' ha' b' hb' e he he'
    replace he : _ = some e := (hname a b).symm.trans he
    replace he' : _ = some e := (hname a' b').symm.trans he'
    split at he
    next hai =>
      split at he'
      next hai' =>
        have hbb := (Option.some.inj he).trans (Option.some.inj he').symm
        exact ⟨hai.trans hai'.symm, hfresh.2 b hb b' hb' hbb⟩
      next => exact absurd (Option.some.inj he) (hused e (hw.exists_end a' ha' b' hb' e he') b hb)
    next =>
      split at he'
      next => exact absurd (Option.some.inj he') (hused e (hw.exists_end a ha b hb e he) b' hb')
      next => exact hw.inj a ha b hb a' ha' b' hb' e he he'
  · intro a ha b hb e he
    show net.enabled e = true ↔ cfg.connected a = true ∧ cfg.connected b = true
    replace he : _ = some e := (hname a b).symm.trans he
    split at he
    next hai =>
      rw [← Option.some.inj he, hnew b hb, hai, hoff]
      simp
    next =>
      rw [hold e (hused e (hw.exists_end a ha b hb e he))]
      exact hw.agree a ha b hb e he
  · intro e he hnone
    show net.enabled e = false
    have hne : ∀ j < cfg.n, names j ≠ e := by
      rintro j hj rfl
      exact hnone i hi j hj ((hname i j).trans (if_pos rfl))
    have hmade : cfg.net.ends e = true := by
      rcases (hends e).mp he with h | ⟨j, hj, hje⟩
      · exact h
      · exact absurd hje (hne j hj)
    rw [hold e hne]
    apply hw.disabled hi hoff hmade
    intro a ha hai b hb hab
    exact hnone a ha b hb ((hname a b).trans (by rw [if_neg hai]; exact hab))

theorem Wired.start1 {cfg : Config E S} (hw : Wired cfg) {i : ℕ} (hi : i < cfg.n)
    {names : ℕ → E} (hfresh : Fresh cfg names) (srv : S) :
    ∃ cfg', cfg.start1 i names srv = some cfg' ∧ Wired cfg' ∧ cfg'.n = cfg.n ∧
      cfg'.endnames = Function.update cfg.endnames i (some names) ∧
      (∀ e, cfg'.net.ends e = true ↔ cfg.net.ends e = true ∨ ∃ j < cfg.n, names j = e) ∧
      cfg'.connected = Function.update cfg.connected i false := by
  obtain ⟨mid, hmid, hw', hsame, hconn⟩ := hw.crash1 hi
  have hfresh' : Fresh mid names := by
    unfold Fresh
    rw [hsame.n, hsame.ends]
    exact hfresh
  obtain ⟨net, hnet, hends, hnew, hold⟩ := makeEnds_spec mid.net hfresh'.1 hfresh'.2
  have hrow := hw'.newRow (by rw [hsame.n]; exact hi) (by rw [hconn, Function.update_self])
    hfresh' hends hnew hold
  refine ⟨{ mid with
      endnames := Function.update mid.endnames i (some names)
      net := NetOp.apply net (.addServer i srv) }, ?_, ?_, hsame.n, ?_, ?_, hconn⟩
  · unfold Config.start1
    rw [hmid]
    simp only [Option.bind_some, hnet]
    rfl
  · exact ⟨hrow.started, hrow.exists_end, hrow.inj, hrow.agree, hrow.replaced⟩
  · rw [← hsame.endnames]
  · intro e
    show net.ends e = true ↔ _
    rw [hends e, hsame.ends, hsame.n]

/-! ## §5. Whole runs. -/

/-- All servers are started and the two views agree. -/
structure Ready (n : ℕ) (cfg : Config E S) : Prop where
  wired : Wired cfg
  size : cfg.n = n
  rows : ∀ i < n, (cfg.endnames i).isSome

/-- The first loop of `make_config`: the ends made are the rows so far. -/
theorem startAll_spec {n : ℕ} (unreliable : Bool) {names : ℕ → ℕ → E} (srv : ℕ → S)
    (hnames : Distinct n names) :
    ∃ cfg, forLoop 0 n 1 (fun i cfg => Config.start1 cfg i (names i) (srv i))
        (.blank n unreliable) = some cfg ∧ Wired cfg ∧ cfg.n = n ∧
      (∀ i < n, (cfg.endnames i).isSome) ∧
      ∀ e, cfg.net.ends e = true ↔ ∃ i < n, ∃ j < n, names i j = e := by
  refine forLoop_rule_one (fun k (cfg : Config E S) => Wired cfg ∧ cfg.n = n ∧
    (∀ i < k, (cfg.endnames i).isSome) ∧
    ∀ e, cfg.net.ends e = true ↔ ∃ i < k, ∃ j < n, names i j = e) (Nat.zero_le n) ?_ ?_
  · refine ⟨⟨?_, ?_, ?_, ?_, ?_⟩, rfl, fun i hi => by omega, ?_⟩ <;>
      simp [Config.blank, Config.endname, NetOp.apply, Registry.make]
  · rintro k cfg _ hk ⟨hw, hn, hrows, hends⟩
    have hfresh : Fresh cfg (names k) := by
      unfold Fresh
      rw [hn]
      refine ⟨?_, fun j hj j' hj' h => (hnames k hk j hj k hk j' hj' h).2⟩
      intro j hj
      by_contra hmade
      obtain ⟨i, hi, j', hj', he⟩ := (hends _).mp (by simpa using hmade)
      have := (hnames i (by omega) j' hj' k hk j hj he).1
      omega
    obtain ⟨cfg', hstart, hw', hn', hrows', hends', -⟩ :=
      hw.start1 (by rw [hn]; exact hk) hfresh (srv k)
    refine ⟨cfg', hstart, hw', hn'.trans hn, ?_, ?_⟩
    · intro i hi
      rw [hrows']
      by_cases hik : i = k
      · rw [hik, Function.update_self]
        rfl
      · rw [Function.update_of_ne hik]
        exact hrows i (by omega)
    · intro e
      rw [hends' e, hends e, hn]
      constructor
      · rintro (⟨i, hi, h⟩ | h)
        · exact ⟨i, by omega, h⟩
        · exact ⟨k, by omega, h⟩
      · rintro ⟨i, hi, h⟩
        rcases Nat.lt_succ_iff_lt_or_eq.mp hi with hlt | rfl
        · exact Or.inl ⟨i, hlt, h⟩
        · exact Or.inr h

/-- `make_config` succeeds, and leaves all servers started and connected. -/
theorem makeConfig_ready {n : ℕ} (unreliable : Bool) {names : ℕ → ℕ → E} (srv : ℕ → S)
    (hnames : Distinct n names) :
    ∃ cfg, makeConfig n unreliable names srv = some cfg ∧ Ready n cfg ∧
      (∀ i < n, cfg.connected i = true) ∧
      ∀ e, cfg.net.ends e = true ↔ ∃ i < n, ∃ j < n, names i j = e := by
  obtain ⟨mid, hmid, hw, hn, hrows, hends⟩ := startAll_spec unreliable srv hnames
  unfold makeConfig
  rw [hmid, Option.bind_some]
  refine forLoop_rule_one (fun k (cfg : Config E S) => Ready n cfg ∧
    (∀ i < k, cfg.connected i = true) ∧
    ∀ e, cfg.net.ends e = true ↔ ∃ i < n, ∃ j < n, names i j = e) (Nat.zero_le n)
    ⟨⟨hw, hn, hrows⟩, fun i hi => by omega, hends⟩ ?_
  rintro k cfg _ hk ⟨⟨hw, hn, hrows⟩, hconn, hends⟩
  obtain ⟨cfg', hconnect, hw', hsame, hflags⟩ := hw.connect (by rw [hn]; exact hk) (hrows k hk)
  refine ⟨cfg', hconnect, ⟨hw', hsame.n.trans hn, by rw [hsame.endnames]; exact hrows⟩, ?_, ?_⟩
  · intro i hi
    rw [hflags]
    by_cases hik : i = k
    · rw [hik, Function.update_self]
    · rw [Function.update_of_ne hik]
      exact hconn i (by omega)
  · intro e
    rw [hsame.ends]
    exact hends e

/-- What an operation does to the names: ends are not unmade, and a row gets new names
only. -/
structure Renamed (cfg cfg' : Config E S) : Prop where
  ends : ∀ e, cfg.net.ends e = true → cfg'.net.ends e = true
  back : ∀ a < cfg.n, ∀ b < cfg.n, ∀ e, cfg.net.ends e = true → cfg'.endname a b = some e →
    cfg.endname a b = some e

omit [DecidableEq E] in
theorem SameNames.renamed {cfg cfg' : Config E S} (h : SameNames cfg cfg') : Renamed cfg cfg' := by
  refine ⟨fun e he => by rw [h.ends]; exact he, fun a _ b _ e _ hab => ?_⟩
  unfold Config.endname at hab ⊢
  rw [h.endnames] at hab
  exact hab

/-- **One operation** succeeds, leaves the servers ready and sets one flag. -/
theorem Ready.apply {n : ℕ} {cfg : Config E S} (hr : Ready n cfg) {op : ConfigOp E S}
    (hop : op.server < cfg.n) (hfresh : op.Fresh cfg) :
    ∃ cfg', op.apply cfg = some cfg' ∧ Ready n cfg' ∧ Renamed cfg cfg' ∧
      cfg'.connected = Function.update cfg.connected op.server op.connects := by
  obtain ⟨hw, hn, hrows⟩ := hr
  -- what an operation on the flags leaves alone
  have hkeep : ∀ {cfg' : Config E S}, Wired cfg' → SameNames cfg cfg' → Ready n cfg' :=
    fun hw' hsame => ⟨hw', hsame.n.trans hn, by rw [hsame.endnames]; exact hrows⟩
  cases op with
  | start1 i names srv =>
      have hi : i < cfg.n := hop
      obtain ⟨cfg', hstart, hw', hn', hrows', hends', hflags⟩ := hw.start1 hi hfresh srv
      refine ⟨cfg', hstart, ⟨hw', hn'.trans hn, ?_⟩, ⟨?_, ?_⟩, hflags⟩
      · intro a ha
        rw [hrows']
        by_cases hai : a = i
        · rw [hai, Function.update_self]
          rfl
        · rw [Function.update_of_ne hai]
          exact hrows a ha
      · intro e he
        exact (hends' e).mpr (Or.inl he)
      · intro a ha b hb e he hab
        unfold Config.endname at hab
        rw [hrows', endname_update] at hab
        split at hab
        next =>
          -- the new names did not exist before
          have hnone := hfresh.1 b hb
          rw [Option.some.inj hab, he] at hnone
          cases hnone
        next => exact hab
  | crash1 i =>
      obtain ⟨cfg', hcrash, hw', hsame, hflags⟩ := hw.crash1 hop
      exact ⟨cfg', hcrash, hkeep hw' hsame, hsame.renamed, hflags⟩
  | connect i =>
      obtain ⟨cfg', hconnect, hw', hsame, hflags⟩ :=
        hw.connect hop (hrows i (by rw [← hn]; exact hop))
      exact ⟨cfg', hconnect, hkeep hw' hsame, hsame.renamed, hflags⟩
  | disconnect i =>
      obtain ⟨cfg', hdisconnect, hw', hsame, hflags⟩ := hw.disconnect hop
      exact ⟨cfg', hdisconnect, hkeep hw' hsame, hsame.renamed, hflags⟩

theorem Ready.step {n : ℕ} {cfg cfg' : Config E S} (hr : Ready n cfg)
    (h : (configSystem E S n).step cfg cfg') : Ready n cfg' ∧ Renamed cfg cfg' := by
  obtain ⟨op, hop, hfresh, happly⟩ := h
  obtain ⟨cfg'', happly', hr', hren, -⟩ := hr.apply hop hfresh
  rw [happly] at happly'
  cases happly'
  exact ⟨hr', hren⟩

theorem Ready.reachable {n : ℕ} {cfg : Config E S} (h : (configSystem E S n).Reachable cfg) :
    Ready n cfg := by
  refine h.invariant ?_ (fun _ _ _ hr hstep => (hr.step hstep).1)
  rintro cfg ⟨unreliable, names, srv, hnames, hmake⟩
  obtain ⟨cfg', hmake', hr, -⟩ := makeConfig_ready unreliable srv hnames
  rw [hmake] at hmake'
  cases hmake'
  exact hr

/-- Over a whole run, too, ends are not unmade and rows get new names only. -/
theorem Ready.run {n : ℕ} {cfg cfg' : Config E S} (hr : Ready n cfg)
    (h : Relation.ReflTransGen (configSystem E S n).step cfg cfg') :
    Ready n cfg' ∧ Renamed cfg cfg' := by
  induction h with
  | refl => exact ⟨hr, fun _ he => he, fun _ _ _ _ _ _ hab => hab⟩
  | tail _ hstep ih =>
      obtain ⟨hr', hends, hback⟩ := ih
      obtain ⟨hr'', hends', hback'⟩ := hr'.step hstep
      rw [hr'.size] at hback'
      refine ⟨hr'', fun e he => hends' e (hends e he), fun a ha b hb e he hab => ?_⟩
      rw [hr.size] at ha hb
      exact hback a (by rw [hr.size]; exact ha) b (by rw [hr.size]; exact hb) e he
        (hback' a ha b hb e (hends e he) hab)

/-- **The flags and the ends agree**: starting from `make_config`, after any sequence of
`start1`, `crash1`, `connect` and `disconnect` on any servers, every further operation
succeeds, and sets the flag of its server and no other; `endnames[i][j]` is enabled iff `i`
and `j` are both connected; and an end name that a server once had and has no longer is
disabled from then on. -/
theorem connectivity_agrees {n : ℕ} {cfg : Config E S}
    (h : (configSystem E S n).Reachable cfg) :
    (∀ op : ConfigOp E S, op.server < n → op.Fresh cfg → ∃ cfg', op.apply cfg = some cfg' ∧
      cfg'.connected = Function.update cfg.connected op.server op.connects) ∧
    (∀ i < n, ∀ j < n, ∃ e, cfg.endname i j = some e ∧
      (cfg.net.enabled e = true ↔ cfg.connected i = true ∧ cfg.connected j = true)) ∧
    ∀ cfg' cfg'' : Config E S, Relation.ReflTransGen (configSystem E S n).step cfg cfg' →
      Relation.ReflTransGen (configSystem E S n).step cfg' cfg'' →
      ∀ i < n, ∀ j < n, ∀ e, cfg.endname i j = some e → cfg'.endname i j ≠ some e →
        cfg''.net.enabled e = false := by
  have hr := Ready.reachable h
  refine ⟨?_, ?_, ?_⟩
  · intro op hop hfresh
    obtain ⟨cfg', happly, -, -, hflags⟩ := hr.apply (by rw [hr.size]; exact hop) hfresh
    exact ⟨cfg', happly, hflags⟩
  · intro i hi j hj
    have hsome : (cfg.endname i j).isSome := by
      rw [cfg.endname_isSome]
      exact hr.rows i hi
    obtain ⟨e, he⟩ := Option.isSome_iff_exists.mp hsome
    rw [← hr.size] at hi hj
    exact ⟨e, he, hr.wired.agree i hi j hj e he⟩
  · intro cfg' cfg'' hrun hrun' i hi j hj e he hgone
    obtain ⟨hr', hren⟩ := hr.run hrun
    obtain ⟨hr'', hren'⟩ := hr'.run hrun'
    rw [← hr.size] at hi hj
    have hmade := hr.wired.exists_end i hi j hj e he
    refine hr''.wired.replaced e (hren'.ends e (hren.ends e hmade)) ?_
    -- wherever `e` stands now it stood before, and in `cfg` it stood at `i`, `j` only
    intro a ha b hb hab
    rw [hr''.size, ← hr'.size] at ha hb
    have hab' := hren'.back a ha b hb e (hren.ends e hmade) hab
    rw [hr'.size, ← hr.size] at ha hb
    obtain ⟨rfl, rfl⟩ := hr.wired.inj i hi j hj a ha b hb e he (hren.back a ha b hb e hmade hab')
    exact hgone hab'

/-- Two servers; server 0 is restarted and connected again.  It reaches server 1 by its new
end, and the instance that was replaced does not. -/
theorem connectivity_agrees_restarted : ∃ cfg cfg' : Config (ℕ × ℕ) Unit,
    (configSystem (ℕ × ℕ) Unit 2).Reachable cfg ∧
    Relation.ReflTransGen (configSystem (ℕ × ℕ) Unit 2).step cfg cfg' ∧
    ∃ e e', cfg.endname 0 1 = some e ∧ cfg'.endname 0 1 = some e' ∧
      cfg'.net.enabled e = false ∧ cfg'.net.enabled e' = true := by
  have hnames : Distinct 2 (fun i j : ℕ => (i, j)) := fun i _ j _ i' _ j' _ h => by
    simpa using h
  obtain ⟨cfg, hmake, hr, hconn, hends⟩ := makeConfig_ready false (fun _ => ()) hnames
  have hreach : (configSystem (ℕ × ℕ) Unit 2).Reachable cfg :=
    System.Reachable.of_init ⟨false, _, _, hnames, hmake⟩
  have hfresh : Fresh cfg (fun j => (2, j)) := by
    refine ⟨?_, fun j _ k _ h => (Prod.mk.inj h).2⟩
    intro j _
    by_contra hmade
    obtain ⟨i, hi, k, -, he⟩ := (hends _).mp (by simpa using hmade)
    have := (Prod.mk.inj he).1
    omega
  have hsize : (0 : ℕ) < cfg.n := by rw [hr.size]; decide
  obtain ⟨mid, hstart, -, hn, hrows, -, hoff⟩ := hr.wired.start1 hsize hfresh ()
  have hstep : (configSystem (ℕ × ℕ) Unit 2).step cfg mid := ⟨.start1 0 _ (), hsize, hfresh, hstart⟩
  obtain ⟨-, hagree, hreplaced⟩ := connectivity_agrees hreach
  obtain ⟨e, he, -⟩ := hagree 0 (by decide) 1 (by decide)
  have hgone : mid.endname 0 1 ≠ some e := by
    -- the new names are not among the ends of `make_config`
    have hmade := hr.wired.exists_end 0 hsize 1 (by rw [hr.size]; decide) e he
    unfold Config.endname
    rw [hrows, Function.update_self]
    rintro h
    rw [← Option.some.inj h, hfresh.1 1 (by rw [hr.size]; decide)] at hmade
    cases hmade
  -- `connect(0)`
  obtain ⟨hnext, -, -⟩ := connectivity_agrees (hreach.tail hstep)
  obtain ⟨cfg', hconnect, hon⟩ := hnext (.connect 0) (by decide) trivial
  have hstep' : (configSystem (ℕ × ℕ) Unit 2).step mid cfg' :=
    ⟨.connect 0, by rw [hn]; exact hsize, trivial, hconnect⟩
  obtain ⟨-, hagree', -⟩ := connectivity_agrees ((hreach.tail hstep).tail hstep')
  obtain ⟨e', he', hiff⟩ := hagree' 0 (by decide) 1 (by decide)
  refine ⟨cfg, cfg', hreach, .tail (.single hstep) hstep', e, e', he, he', ?_, hiff.mpr ?_⟩
  · exact hreplaced mid cfg' (.single hstep) (.single hstep') 0 (by decide) 1 (by decide) e he
      hgone
  · rw [hon, hoff]
    exact ⟨rfl, hconn 1 (by decide)⟩

end ComputerScience.RaftConfig
