import Parallax.Disk.Run
import Parallax.Kv.Replica

/-! server/drive.go and `New` of server/server.go: a production node drives the core over its data directory,
applies what is committed and answers clients. A cluster of such nodes, with crashes inside persistence and inside
`Open`. -/
namespace Parallax.Drive
open Kv BigEndian
open Cluster (Setup)

/-- ClientID and Seq. -/
abbrev ClientKey := UInt64 × UInt64

inductive Answer where
  | result (res : Result)
  | notLeader (leaderID : Nat)
  deriving DecidableEq, Repr

/-- A read names the operation of the client that asks, as the pair in a command does. -/
inductive Request where
  | propose (cmd : Command)
  | read (key : Bytes) (op : ClientKey)
  deriving DecidableEq, Repr

def Request.op : Request → ClientKey
  | .propose cmd => (cmd.clientID,cmd.seq)
  | .read _ op => op

/-- The channel that `submit` makes for a request, the `no`-th of its node. -/
structure Chan where
  no : Nat
  req : Request
  deriving DecidableEq, Repr

/-- An answer, with the index that was applied when it was given. -/
structure Reply where
  resp : Chan
  answer : Answer
  applied : Nat
  deriving DecidableEq, Repr

/-- The operation answered. -/
def Reply.op (r : Reply) : ClientKey := r.resp.req.op

structure ReadWaiter where
  key : Bytes
  resp : Chan
  deriving DecidableEq, Repr

def ReadWaiter.op (w : ReadWaiter) : ClientKey := w.resp.req.op

/-- What the drive loop owns; `requests` counts the requests, and `replies` are the answers given since the input
arrived. -/
structure Server where
  node : Raft
  stor : Disk.Storage
  sm : StateMachine := {}
  applied : Nat := 0
  prevLeader : Bool := false
  readToken : UInt64 := 0
  pendingReads : List ReadState := []
  writeWaiters : AList (fun _ : ClientKey => Chan) := ∅
  readWaiters : AList (fun _ : Bytes => ReadWaiter) := ∅
  requests : Nat := 0
  replies : List Reply := []

/-- One case of the drive loop's select. -/
inductive Input where
  | tick
  | recv (m : Message)
  | request (req : Request)
  deriving DecidableEq, Repr

namespace Server

/-- `New`. `none`: the core refuses the storage, or the machine its snapshot. -/
def new (maxSegmentSize : Nat) (cfg : Config) (dir : Disk.Dir) (rand : Nat → Nat) : Option Server :=
  let stor := Disk.openDir maxSegmentSize dir
  let r := Raft.newRaft cfg stor.mirror.toStorage rand
  if r.failed then none
  else
    let snap := stor.snapshot
    if snap.metadata.index > 0 then
      if snap.data.length > 0 then
        match StateMachine.decodeSnapshot.run snap.data with
        | .error _ => none
        | .ok sm => some { node := r, stor := stor, sm := sm, applied := snap.metadata.index }
      else some { node := r, stor := stor, applied := snap.metadata.index }
    else some { node := r, stor := stor }

def reply (s : Server) (resp : Chan) (answer : Answer) : Server :=
  { s with replies := ⟨resp,answer,s.applied⟩ :: s.replies }

def token (n : UInt64) : Bytes := put 8 n.toNat

def handleRequest (s : Server) (req : Request) : Server :=
  let resp : Chan := ⟨s.requests,req⟩
  let s := { s with requests := s.requests + 1 }
  match req with
  | .propose cmd =>
    let (r,ok) := s.node.step { type := .propose, entries := [{ type := .normal, data := encodeCommand cmd }] }
    let s := { s with node := r }
    if ok then { s with writeWaiters := s.writeWaiters.insert (cmd.clientID,cmd.seq) resp }
    else s.reply resp (.notLeader s.node.lead)
  | .read key _ =>
    let s := { s with readToken := s.readToken + 1 }
    let (r,ok) := s.node.step { type := .readIndex, context := token s.readToken }
    let s := { s with node := r }
    if ok then { s with readWaiters := s.readWaiters.insert (token s.readToken) ⟨key,resp⟩ }
    else s.reply resp (.notLeader s.node.lead)

/-- The input of the select, before the drain. -/
def handle (s : Server) : Input → Server
  | .tick => { s with node := s.node.tick }
  | .recv m => { s with node := (s.node.step m).1 }
  | .request req => s.handleRequest req

/-- The channels that are waited on. -/
def waiting (s : Server) : List Chan :=
  s.writeWaiters.entries.map (fun w => w.2) ++ s.readWaiters.entries.map fun w => w.2.resp

/-- A deposed leader fails all waiters. -/
def checkLeadership (s : Server) : Server :=
  let isLeader : Bool := s.node.state = .leader
  let s :=
    if s.prevLeader && !isLeader then
      let s := s.waiting.foldl (fun s resp => s.reply resp (.notLeader s.node.lead)) s
      { s with writeWaiters := ∅, readWaiters := ∅, pendingReads := [] }
    else s
  { s with prevLeader := isLeader }

def serveRead (s : Server) (rs : ReadState) : Server :=
  match s.readWaiters.lookup rs.requestCtx with
  | none => s
  | some w =>
    let s := { s with readWaiters := s.readWaiters.erase rs.requestCtx }
    s.reply w.resp (.result (s.sm.read w.key))

def releaseRead (s : Server) (rs : ReadState) : Server :=
  if s.applied ≥ rs.index then s.serveRead rs else { s with pendingReads := s.pendingReads ++ [rs] }

def servePendingReads (s : Server) : Server :=
  let ready := s.pendingReads.filter fun rs => s.applied ≥ rs.index
  let kept := s.pendingReads.filter fun rs => ¬ s.applied ≥ rs.index
  { ready.foldl serveRead s with pendingReads := kept }

def completeWrite (s : Server) (op : ClientKey) (res : Result) : Server :=
  match s.writeWaiters.lookup op with
  | none => s
  | some resp => { s with writeWaiters := s.writeWaiters.erase op }.reply resp (.result res)

def applyEntry (s : Server) (e : Entry) : Server :=
  if e.index ≤ s.applied then s
  else
    let s := { s with applied := e.index }
    if e.type = .normal ∧ e.data.length > 0 then
      match decodeCommand e.data with
      | .error _ => s
      | .ok cmd =>
        match s.sm.apply cmd with
        | none => s
        | some (res,sm) => ({ s with sm := sm }.completeWrite (cmd.clientID,cmd.seq) res).servePendingReads
    else s.servePendingReads

/-- Snapshot part of step (3); `none` where the machine refuses the data. -/
def applySnapshot (s : Server) (snap : Snapshot) : Option Server :=
  let applied := if snap.metadata.index > s.applied then snap.metadata.index else s.applied
  if snap.data.length > 0 then
    match StateMachine.decodeSnapshot.run snap.data with
    | .error _ => none
    | .ok sm => some { s with sm := sm, applied := applied }
  else some { s with applied := applied }

/-- Step (1) of the drain. An error leaves the directory. -/
def persist (maxSegmentSize : Nat) (stor : Disk.Storage) (rd : Ready) : Except Disk.Dir Disk.Storage :=
  let installed : Except Disk.Dir Disk.Storage := match rd.snapshot with
    | none => .ok stor
    | some snap => match stor.applySnapshot maxSegmentSize snap with
      | .ok stor => .ok stor
      | .error .compacted => .ok stor
      | .error _ => .error stor.dir
  match installed with
  | .error d => .error d
  | .ok stor =>
    match if rd.entries.length > 0 then stor.appendEntries rd.entries else .ok stor with
    | .error _ => .error stor.dir
    | .ok stor =>
      let stor := rd.hardState.elim stor stor.setHardState
      .ok (if rd.mustSync then stor.sync maxSegmentSize else stor)

/-- Steps (3) and (4) on the batch `rd`, persisted into `stor`. -/
def finish (s : Server) (stor : Disk.Storage) (rd : Ready) : Option Server :=
  (rd.snapshot.elim (some s) s.applySnapshot).bind fun s =>
    let s := rd.committedEntries.foldl applyEntry s
    let s := rd.readStates.foldl releaseRead s
    let r := { s.node with raftLog := { s.node.raftLog with storage := stor.mirror.toStorage } }.advance rd
    if r.failed then none else some { s with node := r, stor := stor }

/-- One round of the drain loop, with what it sends. A panic or an error leaves the directory. -/
def round (maxSegmentSize : Nat) (s : Server) : List Message × Except Disk.Dir Server :=
  match s.node.ready with
  | .error _ => ([],.error s.stor.dir)
  | .ok rd =>
    match persist maxSegmentSize s.stor rd with
    | .error d => ([],.error d)
    | .ok stor => (rd.messages,(s.finish stor rd).elim (.error stor.dir) .ok)

/-- The drain loop; one round empties it (`fuel` bounds the rounds of the definition). -/
def drainLoop (maxSegmentSize : Nat) : Nat → Server → List Message × Except Disk.Dir Server
  | 0, s => ([],.ok s)
  | fuel + 1, s =>
    if s.node.hasReady then
      match s.round maxSegmentSize with
      | (ms,.error d) => (ms,.error d)
      | (ms,.ok s) =>
        let (ms',s) := s.drainLoop maxSegmentSize fuel
        (ms ++ ms',s)
    else ([],.ok s)

def drain (maxSegmentSize : Nat) (s : Server) : List Message × Except Disk.Dir Server :=
  s.checkLeadership.drainLoop maxSegmentSize Cluster.State.fuel

end Server

inductive Node where
  | up (s : Server)
  | down (d : Disk.Dir)

/-- `net` holds every message ever sent, `replies` every answer ever given. -/
structure Site where
  node : Nat → Node := fun _ => .down {}
  net : List Message := []
  replies : List Reply := []

inductive Event where
  /-- An input and its whole drain. -/
  | input (n : Nat) (i : Input)
  /-- An input, then a crash before anything is sent, with `d` left of the directory. -/
  | torn (n : Nat) (i : Input) (d : Disk.Dir)
  | crash (n : Nat)
  | start (n : Nat) (rand : Nat → Nat)
  /-- A crash inside `Open`. -/
  | stall (n : Nat) (d : Disk.Dir)

namespace Site

def setNode (s : Site) (n : Nat) (x : Node) : Site := { s with node := Function.update s.node n x }

theorem setNode_up {s : Site} {n m : Nat} {x : Node} {sv : Server} (h : (s.setNode n x).node m = .up sv) :
    m = n ∧ x = .up sv ∨ m ≠ n ∧ s.node m = .up sv := by
  by_cases hmn : m = n
  · subst hmn
    exact .inl ⟨rfl,by simpa [setNode] using h⟩
  · exact .inr ⟨hmn,by simpa [setNode,hmn] using h⟩

/-- Clients may ask for anything; a peer message must have been sent to the node. -/
def Admits (s : Site) (n : Nat) : Input → Prop
  | .tick | .request _ => True
  | .recv m => m ∈ s.net ∧ m.dest = n

instance (s : Site) (n : Nat) (i : Input) : Decidable (s.Admits n i) := by
  cases i <;> unfold Admits <;> infer_instance

/-- Effect of an event; a node that is down ignores inputs. -/
def next (maxSegmentSize : Nat) (S : Setup) (s : Site) : Event → Site
  | .input n i =>
    match s.node n with
    | .down _ => s
    | .up sv =>
      let sv := sv.handle i
      if sv.node.failed then s.setNode n (.down sv.stor.dir)
      else
        match sv.drain maxSegmentSize with
        | (ms,.error d) => { s.setNode n (.down d) with net := ms ++ s.net }
        | (ms,.ok sv) =>
          { s.setNode n (.up { sv with replies := [] }) with
            net := ms ++ s.net
            replies := sv.replies ++ s.replies }
  | .torn n _ d | .stall n d => s.setNode n (.down d)
  | .crash n =>
    match s.node n with
    | .down _ => s
    | .up sv => s.setNode n (.down sv.stor.dir)
  | .start n rand =>
    match s.node n with
    | .up _ => s
    | .down d =>
      match Server.new maxSegmentSize (S.cfg n) d rand with
      | some sv => s.setNode n (.up sv)
      | none => s.setNode n (.down (Disk.openDir maxSegmentSize d).dir)

/-- Whether the event can occur: a member acts, a delivered message was sent, and a crash leaves what the file
operations under way allow. -/
def Enabled (maxSegmentSize : Nat) (S : Setup) (s : Site) : Event → Prop
  | .input n i => n ∈ S.peers ∧ s.Admits n i
  | .torn n i d => n ∈ S.peers ∧ s.Admits n i ∧ ∃ sv rd stor, s.node n = .up sv ∧ (sv.handle i).node.ready = .ok rd ∧
      Server.persist maxSegmentSize sv.stor rd = .ok stor ∧
      Disk.Cut (stor.ops.drop sv.stor.ops.length) sv.stor.dir d
  | .crash n | .start n _ => n ∈ S.peers
  | .stall n d => n ∈ S.peers ∧ ∃ d₀, s.node n = .down d₀ ∧ Disk.Cut (Disk.openDir maxSegmentSize d₀).ops d₀ d

end Site
end Parallax.Drive
