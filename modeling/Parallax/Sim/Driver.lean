import Parallax.Kv.Snapshot
import Parallax.Sim.Checker
import Parallax.Sim.Lin
import Parallax.Sim.Network

/-! sim/loop.go, sim/deliver.go, sim/workload.go and sim/gen.go: what happens in the simulator when an event fires. Nodes
run the raft core over tracked storages, their messages go through the network, and clients put operations to them. The
one generator of a run is split: each incarnation of a node has a stream of its own, network and clients share another. -/
namespace Parallax.Simulation
open Kv Sim BigEndian
open Loop (VirtualTime Call Sight Started)

structure WorkloadConfig where
  clients : Nat := 0
  keys : Nat := 0
  thinkMin : VirtualTime := 0
  thinkMax : VirtualTime := 0
  putRatio : Float64 := .fin 0
  deleteRatio : Float64 := .fin 0
  casRatio : Float64 := .fin 0
  deriving DecidableEq, Repr

structure Config extends Loop.Config where
  snapshotEntries : Nat := 0
  net : NetworkConfig
  workload : WorkloadConfig := {}
  deriving DecidableEq, Repr

inductive NewErr where
  | loop (err : Loop.NewErr)
  | dropRate (got : Float64)
  | dupRate (got : Float64)
  | ratios (sum : Float64)
  deriving DecidableEq, Repr

def Config.validate (c : Config) : Except NewErr Unit :=
  match c.toConfig.validate with
  | .error err => .error (.loop err)
  | .ok _ =>
    let r := (c.workload.putRatio.add c.workload.deleteRatio).add c.workload.casRatio
    let outside (x : Float64) : Bool := x.lt (.fin 0) || Float64.lt (.fin 1) x
    if outside c.net.dropRate then .error (.dropRate c.net.dropRate)
    else if outside c.net.dupRate then .error (.dupRate c.net.dupRate)
    else if outside r then .error (.ratios r)
    else .ok ()

/-- What ends a run, of which only the first is kept. `panicked` is a panic of the core or of the state machine, `draw`
one of the generator, and `spinning` a drain that goes on for longer than the definition allows. -/
inductive Err where
  | panicked (id : Nat)
  | draw
  | spinning (id : Nat)
  | applySnapshot (id : Nat) (err : TrackErr)
  | appendEntries (id : Nat) (err : TrackErr)
  | setHardState (id : Nat) (err : TrackErr)
  | restoreSnapshot (id : Nat) (err : DecodeErr)
  | compaction (id : Nat) (err : TrackErr)
  | decode (id index : Nat) (err : DecodeErr)
  | restart (id : Nat)
  | violation (now : VirtualTime) (v : Violation)
  deriving DecidableEq, Repr

/-- The functions that the scenarios schedule, with what they close over. `other` are those of other callers: the body of
such a fault is the calls that follow the event. -/
inductive Fault where
  | other (k : Nat)
  | partitionLeader
  | healLeader
  | partitionRandomHalf
  | healRandomHalf
  | crashLeader
  | restartLeader (target : Nat)
  | chaosPartition
  | chaosHeal
  | chaosCrash
  | chaosRestart (target : Nat)
  | isolateFollower
  | healFollower
  deriving DecidableEq, Repr

/-- What an event other than a tick does. -/
inductive Payload where
  | deliver (src dst : Nat) (m : Message)
  | client (i : Nat)
  | retry (i : Nat) (seq : UInt64) (attempt : Nat)
  | fault (f : Fault)
  deriving DecidableEq, Repr

/-- `pendingReady`: a batch was taken from the core and not acknowledged. -/
structure NodeState where
  storage : TrackedStorage Storage := { storage := {} }
  node : Option Raft := none
  pendingReady : Bool := false
  sm : StateMachine := {}
  applied : Nat := 0
  appliedLog : List AppliedRec := []
  pendingReads : List ReadState := []
  crashed : Bool := false

namespace NodeState

def up? (ns : NodeState) : Option Raft := if ns.crashed then none else ns.node

/-- A storage is shared with the core that runs on it. -/
def store (ns : NodeState) (t : TrackedStorage Storage) : NodeState :=
  { ns with
    storage := t
    node := ns.node.map fun r => { r with raftLog := { r.raftLog with storage := t.storage } } }

/-- What the checks see. -/
def observed (ns : NodeState) : AppliedNode Storage :=
  { storage := ns.storage
    node := ns.node.map fun r => ⟨r.state,r.term⟩
    crashed := ns.crashed
    applied := ns.applied
    appliedLog := ns.appliedLog }

end NodeState

structure Client where
  id : UInt64
  seq : UInt64 := 0
  leaderHint : Nat := 0
  pending : Bool := false
  cmd : Command := { op := .invalid }
  histID : Nat := 0
  attempt : Nat := 0
  deriving DecidableEq, Repr

/-- The simulator without its clock, its queue and the timers. `seeds` and `orders` are what the coming incarnations of
nodes draw from and how the coming checks iterate over maps; `calls` are the events scheduled since the event fired. -/
structure World where
  cfg : Config
  peers : List Nat
  net : Network
  rng : Rng
  seeds : Nat → Rand
  orders : Nat → Iteration
  checker : Checker
  now : VirtualTime := 0
  nodes : Nat → NodeState := fun _ => {}
  hist : Lin.History := {}
  clients : List Client := []
  firstErr : Option Err := none
  calls : List (Call Payload) := []

namespace World
variable (w : World)

def fail (err : Err) : World := if w.firstErr.isNone then { w with firstErr := some err } else w

def setNode (id : Nat) (ns : NodeState) : World := { w with nodes := Function.update w.nodes id ns }

def schedule (after : VirtualTime) (p : Payload) : World := { w with calls := w.calls ++ [.schedule after p] }

def recordControl : World := { w with calls := w.calls ++ [.recordControl] }

def setClient (i : Nat) (c : Client) : World := { w with clients := w.clients.set i c }

def itoa (n : Nat) : Bytes := (Nat.toDigits 10 n).map fun c => c.toNat.toUInt8

def drawKey : Bytes × Rng :=
  let n := w.cfg.workload.keys
  if n ≤ 1 then ([107,48],w.rng)
  else
    let (k,rng) := w.rng.intn n
    (107 :: itoa k,rng)

/-- "v-id-seq". -/
def valueFor (c : Client) : Bytes := [118,45] ++ itoa c.id.toNat ++ [45] ++ itoa c.seq.toNat

def genCommand (c : Client) : Command × Rng :=
  let wl := w.cfg.workload
  let (key,rng) := w.drawKey
  let (r,rng) := rng.float64
  if r.lt wl.putRatio then
    ({ clientID := c.id, seq := c.seq, op := .put, key, value := some (valueFor c) },rng)
  else if r.lt (wl.putRatio.add wl.deleteRatio) then ({ clientID := c.id, seq := c.seq, op := .delete, key },rng)
  else if r.lt ((wl.putRatio.add wl.deleteRatio).add wl.casRatio) then
    let (x,rng) := rng.float64
    let expect := if x.lt (.fin (mkRat 1 2)) then some ([118,45] ++ itoa c.id.toNat) else none
    ({ clientID := c.id, seq := c.seq, op := .cas, key, value := some (valueFor c), expect },rng)
  else ({ clientID := c.id, seq := c.seq, op := .get, key },rng)

def drawThink : VirtualTime × Rng :=
  let lo := w.cfg.workload.thinkMin
  let hi := w.cfg.workload.thinkMax
  if hi ≤ lo then (if lo > 0 then lo else w.cfg.tickEvery,w.rng) else w.rng.uniform lo hi

def retryTimeout : VirtualTime := w.cfg.electionTicks * 4 * w.cfg.tickEvery

/-- A message to the node itself does not touch the network. -/
def sendMessage (src : Nat) (w : World) (m : Message) : World :=
  if m.dest = src then w.schedule 0 (.deliver src m.dest m)
  else
    let (d,net,rng) := w.net.route w.rng src m.dest m
    let w := { w with net, rng }
    if !d.deliver && !d.duplicate then w.recordControl
    else
      let w := if d.deliver then w.schedule d.delay (.deliver src m.dest m) else w.recordControl
      if d.duplicate then w.schedule d.dupDelay (.deliver src m.dest m) else w

def leads (id : Nat) : Bool := (w.nodes id).node.any (·.state = .leader)

/-- The client of this id, with its place. -/
def client? (id : UInt64) : Option (Nat × Client) :=
  if id = 0 then none else (w.clients[id.toNat - 1]?).map fun c => (id.toNat - 1,c)

def finish (i : Nat) (c : Client) (res : Result) : World :=
  let (think,rng) := w.drawThink
  let hist := w.hist.complete c.histID res (Int64.ofInt w.now)
  ({ w with hist, rng }.recordControl.setClient i { c with pending := false }).schedule think (.client i)

/-- Only the leader answers. -/
def completeIfLeader (id : Nat) (cmd : Command) (res : Result) : World :=
  if !w.leads id then w
  else
    match w.client? cmd.clientID with
    | none => w
    | some (i,c) => if !c.pending ∨ c.cmd.op = .get ∨ c.seq ≠ cmd.seq then w else w.finish i c res

def serveRead (id : Nat) (w : World) (rs : ReadState) : World :=
  if !w.leads id then w
  else if rs.requestCtx.length ≠ 16 then w
  else
    let clientID := UInt64.ofNat (get (rs.requestCtx.take 8))
    let seq := UInt64.ofNat (get (rs.requestCtx.drop 8))
    match w.client? clientID with
    | none => w
    | some (i,c) =>
      if !c.pending ∨ c.cmd.op ≠ .get ∨ c.seq ≠ seq then w
      else w.finish i c ((w.nodes id).sm.read c.cmd.key)

def releaseRead (id : Nat) (w : World) (rs : ReadState) : World :=
  let ns := w.nodes id
  if ns.applied ≥ rs.index then w.serveRead id rs
  else w.setNode id { ns with pendingReads := ns.pendingReads ++ [rs] }

def servePendingReads (id : Nat) : World :=
  let ns := w.nodes id
  let ready := ns.pendingReads.filter fun rs => ns.applied ≥ rs.index
  let kept := ns.pendingReads.filter fun rs => ¬ ns.applied ≥ rs.index
  (ready.foldl (serveRead id) w).setNode id { ns with pendingReads := kept }

def nodeConfig (id : Nat) : Parallax.Config :=
  { id := id
    peers := w.peers
    electionTicks := w.cfg.electionTicks.toNat
    heartbeatTicks := w.cfg.heartbeatTicks.toNat
    preVote := true }

/-- The node restored from its snapshot, if there is one. -/
def recover (ns : NodeState) : Except DecodeErr NodeState :=
  let snap := ns.storage.storage.snapshot
  if snap.metadata.index > 0 then
    if snap.data.length > 0 then
      (StateMachine.decodeSnapshot.run snap.data).map fun sm => { ns with sm, applied := snap.metadata.index }
    else .ok { ns with applied := snap.metadata.index }
  else .ok ns

def startNode (id : Nat) : Started World :=
  let ns := { w.nodes id with crashed := false }
  let failed := { w with firstErr := some (.restart id), seeds := fun k => w.seeds (k + 1) }
  match (w.nodeConfig id).validate with
  | .error _ => .failed (failed.setNode id ns) false
  | .ok _ =>
    let r := Raft.newRaft (w.nodeConfig id) ns.storage.storage (w.seeds 0)
    if r.failed then .failed (failed.setNode id ns) false
    else
      let ns := { ns with node := some r, pendingReady := false, sm := {}, applied := 0, appliedLog := [] }
      match recover ns with
      | .error _ => .failed (failed.setNode id ns) true
      | .ok ns => .ok ({ w with seeds := fun k => w.seeds (k + 1) }.setNode id ns)

/-- Step (1) of the drain: snapshot, then entries, then hard state. -/
def persist (id : Nat) (t : TrackedStorage Storage) (rd : Ready) : TrackedStorage Storage × Option Err :=
  match rd.snapshot.elim (t,none) (t.applySnapshot mem) with
  | (t,some err) => (t,some (.applySnapshot id err))
  | (t,none) =>
    match if rd.entries.length > 0 then t.appendEntries mem rd.entries else (t,none) with
    | (t,some err) => (t,some (.appendEntries id err))
    | (t,none) =>
      match rd.hardState.elim (t,none) (t.setHardState mem) with
      | (t,some err) => (t,some (.setHardState id err))
      | (t,none) => (t,none)

def applyEntry (id : Nat) (w : World) (e : Entry) : World :=
  let ns := w.nodes id
  if e.index ≤ ns.applied then w
  else
    let ns := { ns with
      applied := e.index
      appliedLog := ns.appliedLog ++ [⟨e.index,e.term,fnv64 e.data⟩] }
    if e.type = .normal ∧ e.data.length > 0 then
      match decodeCommand e.data with
      | .error err => (w.setNode id ns).fail (.decode id e.index err)
      | .ok cmd =>
        match ns.sm.apply cmd with
        | none => (w.setNode id ns).fail (.panicked id)
        | some (res,sm) => ((w.setNode id { ns with sm }).completeIfLeader id cmd res).servePendingReads id
    else (w.setNode id ns).servePendingReads id

/-- Snapshot part of step (3). -/
def installSnapshot (id : Nat) (snap : Snapshot) : Except World World :=
  let ns := w.nodes id
  let applied := if snap.metadata.index > ns.applied then snap.metadata.index else ns.applied
  if snap.data.length > 0 then
    match StateMachine.decodeSnapshot.run snap.data with
    | .error err => .error (w.fail (.restoreSnapshot id err))
    | .ok sm => .ok (w.setNode id { ns with sm, applied })
  else .ok (w.setNode id { ns with applied })

def maybeCompact (id : Nat) : World :=
  let ns := w.nodes id
  let base := ns.storage.storage.snapshot.metadata.index
  if w.cfg.snapshotEntries = 0 ∨ ns.crashed then w
  else if ns.applied ≤ base ∨ ns.applied - base < w.cfg.snapshotEntries then w
  else
    match ns.storage.storage.term ns.applied with
    | .error _ => w
    | .ok term =>
      let newSnap : Snapshot := { metadata := { index := ns.applied, term }, data := ns.sm.snapshot }
      match ns.storage.applySnapshot mem newSnap with
      | (t,none) | (t,some (.storage .compacted)) => (w.setNode id (ns.store t)).recordControl
      | (t,some err) => (w.setNode id (ns.store t)).fail (.compaction id err)

/-- `Advance` for the batch `rd`. -/
def acknowledge (id : Nat) (rd : Ready) : World :=
  let ns := w.nodes id
  match ns.node with
  | none => w
  | some r =>
    let w := w.setNode id { ns with node := some (r.advance rd), pendingReady := false }
    if (r.advance rd).failed then w.fail (.panicked id) else w

/-- One round of the drain loop; an error is an early return. -/
def round (id : Nat) (r : Raft) : Except World World :=
  match r.ready with
  | .error _ => .error (w.fail (.panicked id))
  | .ok rd =>
    let ns := { w.nodes id with pendingReady := true }
    match persist id ns.storage rd with
    | (t,some err) => .error ((w.setNode id (ns.store t)).fail err)
    | (t,none) =>
      let w := rd.messages.foldl (sendMessage id) (w.setNode id (ns.store t))
      (rd.snapshot.elim (.ok w) (w.installSnapshot id)).map fun w =>
        let w := rd.committedEntries.foldl (applyEntry id) w
        let w := rd.readStates.foldl (releaseRead id) w
        (w.acknowledge id rd).maybeCompact id

def drainLoop (id : Nat) : Nat → World → World
  | fuel, w =>
    match (w.nodes id).up? with
    | none => w
    | some r =>
      if (w.nodes id).pendingReady ∨ r.hasReady = false then w
      else
        match fuel with
        | 0 => w.fail (.spinning id)
        | fuel + 1 =>
          match w.round id r with
          | .error w => w
          | .ok w => drainLoop id fuel w

def drain (id : Nat) : World := w.drainLoop id Cluster.State.fuel

/-- `Tick` or `Step` of a node that is up, and its drain. -/
def input (id : Nat) (i : Cluster.Input) : World :=
  match (w.nodes id).up? with
  | none => w
  | some r =>
    let w := w.setNode id { w.nodes id with node := some (i.run r) }
    if (i.run r).failed then w.fail (.panicked id) else w.drain id

def candidateOrder (c : Client) : List Nat :=
  (if c.leaderHint ≠ 0 then [c.leaderHint] else []) ++ w.peers.filter (· ≠ c.leaderHint)

def setHint (i id : Nat) : World := { w with clients := w.clients.modify i fun c => { c with leaderHint := id } }

/-- The loop of `submitWrite` and `submitRead`: the first node that does not refuse gets the request. -/
def offer (i : Nat) (m : Message) : List Nat → World → World
  | [], w => w
  | id :: ids, w =>
    match (w.nodes id).up? with
    | none => offer i m ids w
    | some r =>
      let (r',ok) := r.step m
      let w := w.setNode id { w.nodes id with node := some r' }
      if r'.failed then w.fail (.panicked id)
      else if ok then (w.setHint i id).drain id
      else offer i m ids (if r'.lead ≠ 0 then w.setHint i r'.lead else w)

def token (c : Client) : Bytes := put 8 c.id.toNat ++ put 8 c.seq.toNat

def submitWrite (i : Nat) (c : Client) : World :=
  w.offer i { type := .propose, entries := [{ type := .normal, data := encodeCommand c.cmd }] } (w.candidateOrder c)

def submitRead (i : Nat) (c : Client) : World :=
  w.offer i { type := .readIndex, context := token c } (w.candidateOrder c)

def submit (i : Nat) (c : Client) : World :=
  let c := { c with attempt := c.attempt + 1 }
  let w := w.setClient i c
  let w := if c.cmd.op = .get then w.submitRead i c else w.submitWrite i c
  w.schedule w.retryTimeout (.retry i c.seq c.attempt)

def issue (i : Nat) : World :=
  match w.clients[i]? with
  | none => w
  | some c =>
    if c.pending then w
    else
      let c := { c with seq := c.seq + 1, attempt := 0 }
      let (cmd,rng) := w.genCommand c
      let (histID,hist) := w.hist.invoke c.id cmd (Int64.ofInt w.now)
      let c := { c with cmd, histID, pending := true }
      { w with rng, hist }.recordControl.submit i c

def retry (i : Nat) (seq : UInt64) (attempt : Nat) : World :=
  match w.clients[i]? with
  | none => w
  | some c => if c.pending ∧ c.seq = seq ∧ c.attempt = attempt then w.submit i c else w

/-- One more client, whose first operation is scheduled. -/
def addClient (w : World) (i : Nat) : World :=
  let c : Client := { id := UInt64.ofNat (i + 1) }
  let (think,rng) := w.drawThink
  { w with clients := w.clients ++ [c], rng }.schedule think (.client i)

def startWorkload : World := (List.range w.cfg.workload.clients).foldl addClient { w with clients := [] }

def fire : Payload → World
  | .deliver _ dst m => w.input dst (.step m)
  | .client i => w.issue i
  | .retry i seq attempt => w.retry i seq attempt
  | .fault _ => w

def crash (id : Nat) : World :=
  w.setNode id { w.nodes id with node := none, pendingReady := false, sm := {}, applied := 0, appliedLog := [],
                                 crashed := true }

/-- The nodes as the checker sees them. -/
def observed : Nat → Option (AppliedNode Storage) := fun id =>
  if id ∈ w.peers then some (w.nodes id).observed else none

def check : World :=
  if w.firstErr.isSome then w
  else
    let w' := { w with orders := fun k => w.orders (k + 1) }
    match w.checker.check mem w.now w.observed (w.orders 0) with
    | .error (now,v) => { w' with firstErr := some (.violation now v) }
    | .ok checker => { w' with checker }

def turnTo (s : Sight) : World := { w with now := s.now }

/-- The world, and what was scheduled in it. -/
def flush : World × List (Call Payload) := ({ w with calls := [] },w.calls)

end World

def harness : Loop.Harness World Payload where
  startNode _ id w := w.startNode id
  startWorkload w := w.startWorkload.flush
  tick s id w := ((w.turnTo s).input id .tick).flush
  fire s p w := ((w.turnTo s).fire p).flush
  drain s id w := ((w.turnTo s).drain id).flush
  crash id w := w.crash id
  check s w := (w.turnTo s).check

abbrev Simulator := Loop.Simulator World Payload

/-- Any calls of the methods of a simulator, also between the steps. -/
inductive Op where
  | step
  | crash (id : Nat)
  | restart (id : Nat)
  | partition (groups : List (List Nat))
  | heal
  | setMessageHook (hook : Option MessageHook)
  | scheduleFault (after : VirtualTime) (f : Fault)

namespace Simulator

/-- `rng`, `seeds` and `orders` stand for all that the seed and map iteration determine. -/
def new (cfg : Config) (rng : Rand) (seeds : Nat → Rand) (orders : Nat → Iteration) : Except NewErr Simulator :=
  match cfg.validate with
  | .error err => .error err
  | .ok _ =>
    let peers := (List.range cfg.nodes.toNat).map (· + 1)
    (Loop.Simulator.new cfg.toConfig harness
      { cfg, peers, net := { cfg := cfg.net }, rng := { stream := rng }, seeds, orders, checker := { peers } }).mapError .loop

def setNet (s : Simulator) (net : Network) : Simulator := { s with rest := { s.rest with net } }

def op (s : Simulator) : Op → Simulator
  | .step => s.step harness
  | .crash id => s.crash harness id
  | .restart id => s.restart harness id
  | .partition groups => (setNet s (s.rest.net.setPartition groups)).recordControl
  | .heal => (setNet s s.rest.net.heal).recordControl
  | .setMessageHook hook => setNet s { s.rest.net with hook }
  | .scheduleFault after f => s.schedule after (.other (.fault f))

def run (s : Simulator) (ops : List Op) : Simulator := ops.foldl op s

/-- `Err`, unless a draw has panicked. -/
def err (s : Simulator) : Option Err := if s.rest.rng.panicked then some .draw else s.rest.firstErr

end Simulator
end Parallax.Simulation
