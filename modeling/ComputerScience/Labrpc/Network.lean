/-
  ComputerScience.Labrpc.Network
  ──────────────────────────────
  **THE SIMULATED NETWORK OF THE RAFT LABS** (`labrpc/labrpc.go`).

  `Registry` is what `rn.mu` protects: which ends are enabled, what they are connected to,
  which server object is registered under which name.  Every operation on it is one atomic
  step.

  A `Request` is one `ClientEnd.Call` with all goroutines that work for it:

      caller     the goroutine in `Call`
      proc       `rn.processReq(req)`
      handler    `r := server.dispatch(req); ech <- r`
      drain      `<-ech`, started when the server is found dead
      timer      the callback of a `time.AfterFunc`

  together with the history of its handler runs and of the messages on its `replyCh`.  Delays
  and random choices are open: a sleep may take any time, a `time.After` may fire at any
  moment, and `rand` may come out either way.  A `log.Fatalf` or a panic ends the process.  The
  statistics `count` and `bytes`, which nothing else reads, are left out.
-/
import ComputerScience.Lib.Pool
import ComputerScience.Lib.TransitionSystem
import Mathlib.Logic.Function.Basic

namespace ComputerScience.Labrpc

open ComputerScience.Lib

/-! ## §1. The registry. -/

/-- The fields of `Network` under `rn.mu`; `E`, `N` and `S` are the end names, the server
names and the server objects. -/
structure Registry (E N S : Type) where
  reliable : Bool
  longDelays : Bool
  longReordering : Bool
  /-- The ends that `MakeEnd` has made. -/
  ends : E → Bool
  enabled : E → Bool
  servers : N → Option S
  connections : E → Option N

/-- What `readEndnameInfo` returns. -/
structure EndInfo (N S : Type) where
  enabled : Bool
  servername : Option N
  server : Option S
  reliable : Bool
  longreordering : Bool

variable {E N S : Type}

/-- The registry of `MakeNetwork`. -/
def Registry.make : Registry E N S where
  reliable := true
  longDelays := false
  longReordering := false
  ends _ := false
  enabled _ := false
  servers _ := none
  connections _ := none

/-- The operations on the registry. -/
inductive NetOp (E N S : Type) where
  | reliable (yes : Bool)
  | longReordering (yes : Bool)
  | longDelays (yes : Bool)
  | makeEnd (endname : E)
  | addServer (servername : N) (rs : S)
  | deleteServer (servername : N)
  | connect (endname : E) (servername : Option N)
  | enable (endname : E) (enabled : Bool)

def Registry.readEndnameInfo (rn : Registry E N S) (endname : E) : EndInfo N S where
  enabled := rn.enabled endname
  servername := rn.connections endname
  server := (rn.connections endname).bind rn.servers
  reliable := rn.reliable
  longreordering := rn.longReordering

def Registry.isServerDead [DecidableEq S] (rn : Registry E N S) (endname : E) (servername : N)
    (server : S) : Bool :=
  rn.enabled endname == false || rn.servers servername != some server

/-- The operation on the registry. -/
def NetOp.apply [DecidableEq E] [DecidableEq N] (rn : Registry E N S) :
    NetOp E N S → Registry E N S
  | .reliable yes => { rn with reliable := yes }
  | .longReordering yes => { rn with longReordering := yes }
  | .longDelays yes => { rn with longDelays := yes }
  | .makeEnd endname =>
      { rn with
        ends := Function.update rn.ends endname true
        enabled := Function.update rn.enabled endname false
        connections := Function.update rn.connections endname none }
  | .addServer servername rs =>
      { rn with servers := Function.update rn.servers servername (some rs) }
  | .deleteServer servername =>
      { rn with servers := Function.update rn.servers servername none }
  | .connect endname servername =>
      { rn with connections := Function.update rn.connections endname servername }
  | .enable endname enabled =>
      { rn with enabled := Function.update rn.enabled endname enabled }

/-- `MakeEnd` of an existing end is a `log.Fatalf`. -/
def NetOp.fatal (rn : Registry E N S) : NetOp E N S → Bool
  | .makeEnd endname => rn.ends endname
  | _ => false

/-! ## §2. One request. -/

/-- The request as it is sent to the network goroutine, without its `argsType` and `replyCh`. -/
structure ReqMsg (E : Type) where
  endname : E
  svcMeth : String
  args : List UInt8

structure ReplyMsg where
  ok : Bool
  reply : List UInt8
  deriving DecidableEq, Repr

/-- `replyMsg{false, nil}` -/
def ReplyMsg.failed : ReplyMsg := ⟨false, []⟩

/-- The variables of `processReq` for a request that found its server. -/
structure Target (N S : Type) where
  servername : N
  server : S
  reliable : Bool
  longreordering : Bool

/-- The test `enabled && servername != nil && server != nil`. -/
def EndInfo.target (info : EndInfo N S) : Option (Target N S) :=
  match info.enabled, info.servername, info.server with
  | true, some servername, some server =>
      some ⟨servername, server, info.reliable, info.longreordering⟩
  | _, _, _ => none

/-- Where `Call` is. -/
inductive CallerPc where
  /-- at `select { case e.ch <- req: … case <-e.done: … }` -/
  | sending
  /-- at `rep := <-req.replyCh` -/
  | waiting
  | got (rep : ReplyMsg)
  /-- returned true with these bytes decoded, or false -/
  | returned (reply : Option (List UInt8))

/-- Where `processReq` is. -/
inductive ProcPc (N S : Type) where
  /-- the request was not taken by the network goroutine -/
  | unaccepted
  /-- before `go rn.processReq(xreq)` -/
  | accepted
  /-- before `rn.readEndnameInfo(req.endname)` -/
  | reading
  /-- in the short delay, before the request is dropped or executed -/
  | delaying (t : Target N S)
  /-- at the `select` of the loop that waits for the handler -/
  | selecting (t : Target N S)
  /-- after `<-time.After(100 * time.Millisecond)`, before `rn.isServerDead(…)` -/
  | checking (t : Target N S)
  /-- after the loop, before `rn.isServerDead(…)`, with the reply if `replyOK` -/
  | finalCheck (t : Target N S) (reply : Option ReplyMsg)
  /-- the server is alive: before the choice between dropping, delaying and sending -/
  | deciding (t : Target N S) (reply : ReplyMsg)
  /-- before `req.replyCh <- m` -/
  | replying (m : ReplyMsg)
  | exited

/-- Where the goroutine that calls the handler is. -/
inductive HandlerPc (S : Type) where
  | unstarted
  /-- before `server.dispatch(req)` -/
  | started (server : S)
  /-- inside of `server.dispatch(req)` -/
  | running (server : S)
  /-- before `ech <- r` -/
  | sending (r : ReplyMsg)
  | exited

/-- Where the goroutine that drains `ech` is. -/
inductive DrainPc where
  | unstarted
  /-- at `<-ech` -/
  | receiving
  | exited
  deriving DecidableEq, Repr

/-- Where the timer is. -/
inductive TimerPc where
  | unset
  /-- `time.AfterFunc(…)` was called -/
  | armed (m : ReplyMsg)
  /-- in the callback, before `req.replyCh <- m` -/
  | firing (m : ReplyMsg)
  | exited

structure Request (E N S : Type) where
  req : ReqMsg E
  caller : CallerPc
  proc : ProcPc N S
  handler : HandlerPc S
  drain : DrainPc
  timer : TimerPc
  /-- What `processReq` has read. -/
  info : Option (EndInfo N S)
  /-- The server objects on which the handler was called. -/
  runs : List S
  /-- The bytes that the handler runs have produced. -/
  produced : List (List UInt8)
  /-- The messages sent on `replyCh`. -/
  messages : List ReplyMsg

/-- A request at the first statement of `Call`. -/
def Request.start (req : ReqMsg E) : Request E N S :=
  ⟨req, .sending, .unaccepted, .unstarted, .unstarted, .unset, none, [], [], []⟩

/-- What `Call` returns for a message. -/
def ReplyMsg.outcome (m : ReplyMsg) : Option (List UInt8) :=
  if m.ok then some m.reply else none

/-- One step of a goroutine that works for the request, in a network with the registry `rn`. -/
inductive ReqStep [DecidableEq S] (rn : Registry E N S) (c : Request E N S) :
    Request E N S → Prop where
  | readAlive (t : Target N S) (h : c.proc = .reading)
      (ht : (rn.readEndnameInfo c.req.endname).target = some t) :
      ReqStep rn c { c with
        proc := .delaying t
        info := some (rn.readEndnameInfo c.req.endname) }
  -- no reply: the timer of the simulated timeout
  | readDead (h : c.proc = .reading)
      (ht : (rn.readEndnameInfo c.req.endname).target = none) :
      ReqStep rn c { c with
        proc := .exited
        timer := .armed .failed
        info := some (rn.readEndnameInfo c.req.endname) }
  | dropRequest (t : Target N S) (h : c.proc = .delaying t) (hrel : t.reliable = false) :
      ReqStep rn c { c with proc := .replying .failed }
  | execute (t : Target N S) (h : c.proc = .delaying t) :
      ReqStep rn c { c with proc := .selecting t, handler := .started t.server }
  | dispatch (server : S) (h : c.handler = .started server) :
      ReqStep rn c { c with handler := .running server, runs := c.runs ++ [server] }
  | handlerReturn (server : S) (bytes : List UInt8) (h : c.handler = .running server) :
      ReqStep rn c { c with
        handler := .sending ⟨true, bytes⟩
        produced := c.produced ++ [bytes] }
  | recvEch (t : Target N S) (r : ReplyMsg) (h : c.proc = .selecting t)
      (hh : c.handler = .sending r) :
      ReqStep rn c { c with proc := .finalCheck t (some r), handler := .exited }
  | timeout (t : Target N S) (h : c.proc = .selecting t) :
      ReqStep rn c { c with proc := .checking t }
  | checkAlive (t : Target N S) (h : c.proc = .checking t)
      (hdead : rn.isServerDead c.req.endname t.servername t.server = false) :
      ReqStep rn c { c with proc := .selecting t }
  | checkDead (t : Target N S) (h : c.proc = .checking t)
      (hdead : rn.isServerDead c.req.endname t.servername t.server = true) :
      ReqStep rn c { c with proc := .finalCheck t none, drain := .receiving }
  | drainEch (r : ReplyMsg) (hd : c.drain = .receiving) (hh : c.handler = .sending r) :
      ReqStep rn c { c with drain := .exited, handler := .exited }
  | finalDead (t : Target N S) (reply : Option ReplyMsg) (h : c.proc = .finalCheck t reply)
      (hdead : reply = none ∨ rn.isServerDead c.req.endname t.servername t.server = true) :
      ReqStep rn c { c with proc := .replying .failed }
  | finalAlive (t : Target N S) (r : ReplyMsg) (h : c.proc = .finalCheck t (some r))
      (hdead : rn.isServerDead c.req.endname t.servername t.server = false) :
      ReqStep rn c { c with proc := .deciding t r }
  | dropReply (t : Target N S) (r : ReplyMsg) (h : c.proc = .deciding t r)
      (hrel : t.reliable = false) :
      ReqStep rn c { c with proc := .replying .failed }
  | delayReply (t : Target N S) (r : ReplyMsg) (h : c.proc = .deciding t r)
      (hlong : t.longreordering = true) :
      ReqStep rn c { c with proc := .exited, timer := .armed r }
  | sendReply (t : Target N S) (r : ReplyMsg) (h : c.proc = .deciding t r) :
      ReqStep rn c { c with proc := .replying r }
  | replyProc (m : ReplyMsg) (h : c.proc = .replying m) (hc : c.caller = .waiting) :
      ReqStep rn c { c with
        proc := .exited
        caller := .got m
        messages := c.messages ++ [m] }
  | fire (m : ReplyMsg) (h : c.timer = .armed m) :
      ReqStep rn c { c with timer := .firing m }
  | replyTimer (m : ReplyMsg) (h : c.timer = .firing m) (hc : c.caller = .waiting) :
      ReqStep rn c { c with
        timer := .exited
        caller := .got m
        messages := c.messages ++ [m] }
  | callReturn (m : ReplyMsg) (h : c.caller = .got m) :
      ReqStep rn c { c with caller := .returned m.outcome }

/-! ## §3. The whole network. -/

/-- Where the network goroutine is. -/
inductive LoopPc where
  /-- at its `select` -/
  | selecting
  /-- before `go rn.processReq(xreq)` -/
  | starting (i : ℕ)
  | exited
  deriving DecidableEq, Repr

structure Network (E N S : Type) where
  rn : Registry E N S
  reqs : List (Request E N S)
  loop : LoopPc
  /-- The channel `rn.done` is closed. -/
  done : Bool
  /-- A `log.Fatalf` or a panic has ended the process. -/
  dead : Bool

/-- One step of the clients, the network goroutine, or the goroutines of a request. -/
inductive NetStep [DecidableEq E] [DecidableEq N] [DecidableEq S] (s : Network E N S) :
    Network E N S → Prop where
  | op (o : NetOp E N S) (h : o.fatal s.rn = false) : NetStep s { s with rn := o.apply s.rn }
  | opFatal (o : NetOp E N S) (h : o.fatal s.rn = true) : NetStep s { s with dead := true }
  | cleanup (h : s.done = false) : NetStep s { s with done := true }
  -- a closed channel is closed
  | cleanupPanic (h : s.done = true) : NetStep s { s with dead := true }
  | call (req : ReqMsg E) (h : s.rn.ends req.endname = true) :
      NetStep s { s with reqs := s.reqs ++ [.start req] }
  -- `e.ch <- req` meets `xreq := <-rn.endCh`
  | accept (i : ℕ) (c : Request E N S) (h : s.reqs[i]? = some c) (hc : c.caller = .sending)
      (hl : s.loop = .selecting) :
      NetStep s { s with
        reqs := s.reqs.set i { c with caller := .waiting, proc := .accepted }
        loop := .starting i }
  -- the network has been destroyed: `Call` returns false
  | abandon (i : ℕ) (c : Request E N S) (h : s.reqs[i]? = some c) (hc : c.caller = .sending)
      (hd : s.done = true) :
      NetStep s { s with reqs := s.reqs.set i { c with caller := .returned none } }
  | spawn (i : ℕ) (c : Request E N S) (h : s.reqs[i]? = some c) (hl : s.loop = .starting i)
      (hp : c.proc = .accepted) :
      NetStep s { s with
        reqs := s.reqs.set i { c with proc := .reading }
        loop := .selecting }
  | loopExit (hl : s.loop = .selecting) (hd : s.done = true) :
      NetStep s { s with loop := .exited }
  | request (i : ℕ) (c c' : Request E N S) (h : s.reqs[i]? = some c) (hs : ReqStep s.rn c c') :
      NetStep s { s with reqs := s.reqs.set i c' }
  -- an unknown service or method, or no dot in `svcMeth`
  | dispatchFatal (i : ℕ) (c : Request E N S) (server : S) (h : s.reqs[i]? = some c)
      (hh : c.handler = .running server) :
      NetStep s { s with dead := true }
  -- the reply cannot be decoded
  | decodeFatal (i : ℕ) (c : Request E N S) (m : ReplyMsg) (h : s.reqs[i]? = some c)
      (hc : c.caller = .got m) (hok : m.ok = true) :
      NetStep s { s with dead := true }

/-- `MakeNetwork`, with any number of clients. -/
def makeNetwork (E N S : Type) [DecidableEq E] [DecidableEq N] [DecidableEq S] :
    System (Network E N S) where
  init s := s = ⟨.make, [], .selecting, false, false⟩
  step s s' := s.dead = false ∧ NetStep s s'

end ComputerScience.Labrpc
