import Mathlib.Data.List.Sort
import Parallax.Raft.Log
import Parallax.Raft.ReadOnly

/-! raft/raft.go with the sending side of raft/replication.go and raft/step.go: the
consensus state, role transitions, elections, replication and deferred reads. -/
namespace Parallax

/-- The consensus state machine. `rand` is the stream behind the configured source of
randomness, consumed from the front; `panicked` records a panic outside the log. -/
structure Raft where
  cfg : Config
  id : Nat
  term : Nat := 0
  vote : Nat := None
  raftLog : RaftLog
  state : StateType := .follower
  lead : Nat := None
  peers : List Nat
  prs : AList (fun _ : Nat => Progress) := ∅
  votes : AList (fun _ : Nat => Bool) := ∅
  msgs : List Message := []
  readStates : List ReadState := []
  readOnly : ReadOnly := {}
  pendingReadIndexMessages : List Message := []
  electionElapsed : Nat := 0
  heartbeatElapsed : Nat := 0
  heartbeatTimeout : Nat
  randomizedElectionTimeout : Nat := 0
  prevHardSt : HardState := {}
  rand : Nat → Nat
  panicked : Option Panic := none

namespace Raft

def panic (r : Raft) (p : Panic) : Raft := { r with panicked := some p }

/-- Whether a panic of the source was reached. -/
def failed (r : Raft) : Bool := r.panicked.isSome || r.raftLog.panicked.isSome

def quorum (r : Raft) : Nat := r.peers.length / 2 + 1

def hardState (r : Raft) : HardState :=
  { term := r.term, vote := r.vote, commit := r.raftLog.committed }

/-- Sender and term as `send` stamps them. -/
def stampMessage (r : Raft) (m : Message) : Message :=
  let m := { m with sender := r.id }
  if m.term = 0 ∧ m.type ≠ .propose then
    match m.type with
    | .preVote | .preVoteResp => m
    | _ => { m with term := r.term }
  else m

def send (r : Raft) (m : Message) : Raft := { r with msgs := r.msgs ++ [r.stampMessage m] }

def resetRandomizedElectionTimeout (r : Raft) : Raft :=
  { r with
    randomizedElectionTimeout := r.cfg.electionTicks + r.rand 0 % r.cfg.electionTicks
    rand := fun i => r.rand (i + 1) }

/-- Fresh progress for every peer; only the node itself has a match. -/
def initProgress (id last : Nat) (peers : List Nat) : AList (fun _ : Nat => Progress) :=
  peers.foldl (fun prs p =>
    prs.insert p { next := last + 1, matched := if p = id then last else 0 }) ∅

def reset (r : Raft) (term : Nat) : Raft :=
  { r.resetRandomizedElectionTimeout with
    term := term
    vote := if r.term = term then r.vote else None
    lead := None
    electionElapsed := 0
    heartbeatElapsed := 0
    votes := ∅
    prs := initProgress r.id r.raftLog.lastIndex r.peers
    readOnly := {}
    pendingReadIndexMessages := [] }

def pastElectionTimeout (r : Raft) : Bool := r.electionElapsed ≥ r.randomizedElectionTimeout

def promotable (r : Raft) : Bool := (r.prs.lookup r.id).isSome

/-- Ships the storage snapshot; without one nothing is sent this round. -/
def sendSnapshot (r : Raft) (id : Nat) : Raft :=
  let snap := r.raftLog.storage.snapshot
  if snap.metadata.index = 0 then r
  else r.send { type := .installSnapshot, dest := id, snapshot := some snap }

def entriesToSend (r : Raft) (lo : Nat) : Except StorageErr (List Entry) :=
  let last := r.raftLog.lastIndex
  if lo > last then .ok []
  else
    let limit := r.cfg.maxEntriesPerAppend
    let hi := if limit > 0 ∧ last + 1 - lo > limit then lo + limit else last + 1
    r.raftLog.slice lo hi

def sendAppend (r : Raft) (id : Nat) : Raft :=
  match r.prs.lookup id with
  | none => r
  | some pr =>
    let prevIndex := pr.next - 1
    match r.raftLog.term prevIndex with
    | .error _ => r.sendSnapshot id
    | .ok prevTerm =>
      match r.entriesToSend pr.next with
      | .error err => if err = .outOfRange then r.panic .outOfRange else r.sendSnapshot id
      | .ok ents =>
        r.send { type := .append, dest := id, logIndex := prevIndex, logTerm := prevTerm,
                 entries := ents, commit := r.raftLog.committed }

def bcastAppend (r : Raft) : Raft :=
  r.peers.foldl (fun r id => if id = r.id then r else r.sendAppend id) r

/-- The body of the loop of `bcastHeartbeatWithCtx`. -/
def sendHeartbeat (r : Raft) (ctx : Bytes) (id : Nat) : Raft :=
  match r.prs.lookup id with
  | none => r.panic .nilProgress
  | some pr =>
    r.send { type := .heartbeat, dest := id, commit := min pr.matched r.raftLog.committed,
             context := ctx }

def bcastHeartbeatWithCtx (r : Raft) (ctx : Bytes) : Raft :=
  r.peers.foldl (fun r id => if id = r.id then r else r.sendHeartbeat ctx id) r

def bcastHeartbeat (r : Raft) : Raft :=
  match r.readOnly.lastPendingRequestCtx with
  | none => r.panic .nilReadStatus
  | some ctx => r.bcastHeartbeatWithCtx ctx

def committedEntryInCurrentTerm (r : Raft) : Bool :=
  match r.raftLog.term r.raftLog.committed with
  | .ok term => term == r.term
  | .error _ => false

def sendReadIndex (r : Raft) (m : Message) : Raft :=
  if r.peers.length = 1 then
    { r with readStates := r.readStates ++ [{ index := r.raftLog.committed, requestCtx := m.context }] }
  else
    let ro := r.readOnly.addRequest r.raftLog.committed m
    let r := { r with readOnly := (ro.recvAck r.id m.context).1 }
    r.bcastHeartbeatWithCtx m.context

def releasePendingReadIndexMessages (r : Raft) : Raft :=
  if r.state ≠ .leader ∨ r.committedEntryInCurrentTerm = false then r
  else
    let pending := r.pendingReadIndexMessages
    pending.foldl sendReadIndex { r with pendingReadIndexMessages := [] }

/-- The Match values in peer order; `none` is a nil dereference. -/
def matchValues (r : Raft) : Option (List Nat) :=
  r.peers.mapM fun id => (r.prs.lookup id).map Progress.matched

def maybeCommit (r : Raft) : Raft × Bool :=
  match r.matchValues with
  | none => (r.panic .nilProgress, false)
  | some ms =>
    let sorted := ms.insertionSort (· ≤ ·)
    match sorted[sorted.length - r.quorum]? with
    | none => (r.panic .outOfRange, false)
    | some mci =>
      match r.raftLog.maybeCommit mci r.term with
      | (_, false) => (r, false)
      | (l, true) => ({ r with raftLog := l }.releasePendingReadIndexMessages, true)

/-- Entries from index `li + 1` on, stamped with `term`. -/
def stampEntries (term li : Nat) : List Entry → List Entry
  | [] => []
  | e :: es => { e with term := term, index := li + 1 } :: stampEntries term (li + 1) es

def appendEntry (r : Raft) (es : List Entry) : Raft :=
  let l := r.raftLog.append (stampEntries r.term r.raftLog.lastIndex es)
  let r := { r with raftLog := l }
  match r.prs.lookup r.id with
  | none => r.panic .nilProgress
  | some pr => ({ r with prs := r.prs.insert r.id (pr.maybeUpdate l.lastIndex).1 }.maybeCommit).1

def becomeFollower (r : Raft) (term lead : Nat) : Raft :=
  { r.reset term with state := .follower, lead := lead }

def becomePreCandidate (r : Raft) : Raft :=
  if r.state = .leader then r.panic .leaderToPreCandidate
  else
    { r.resetRandomizedElectionTimeout with
      state := .preCandidate, votes := ∅, lead := None, electionElapsed := 0 }

/-- `next` is the successor of a term, here and in what calls this. Terms of the source are uint64,
and theirs wraps around (`nextTerm`). -/
def becomeCandidate (r : Raft) (next : Nat → Nat := (· + 1)) : Raft :=
  if r.state = .leader then r.panic .leaderToCandidate
  else { r.reset (next r.term) with vote := r.id, state := .candidate }

def becomeLeader (r : Raft) : Raft :=
  if r.state = .follower then r.panic .followerToLeader
  else { r.reset r.term with lead := r.id, state := .leader }.appendEntry [{ type := .noop }]

def recordVote (r : Raft) (id : Nat) (granted : Bool) : Raft :=
  match r.votes.lookup id with
  | none => { r with votes := r.votes.insert id granted }
  | some _ => r

def tallyGranted (r : Raft) : Nat := (r.votes.entries.filter fun b => b.2).length

def tallyRejected (r : Raft) : Nat := (r.votes.entries.filter fun b => !b.2).length

/-- `solicitVotes` with the continuation of a won tally as a parameter. -/
def solicitVotesWith (r : Raft) (t : MessageType) (voteTerm : Nat) (won : Raft → Raft) : Raft :=
  let r := r.recordVote r.id true
  if r.tallyGranted ≥ r.quorum then won r
  else
    match r.raftLog.lastTerm with
    | .error _ => r.panic .lastTerm
    | .ok lt =>
      let li := r.raftLog.lastIndex
      r.peers.foldl (fun r id => if id = r.id then r else
        r.send { type := t, dest := id, term := voteTerm, logIndex := li, logTerm := lt }) r

/-- The source's recursion is one level deep: a won pre-vote asks for real votes. -/
def solicitVotes (r : Raft) (t : MessageType) (voteTerm : Nat) (next : Nat → Nat := (· + 1)) : Raft :=
  r.solicitVotesWith t voteTerm fun r =>
    if t = .preVote then
      let r := r.becomeCandidate next
      r.solicitVotesWith .vote r.term becomeLeader
    else r.becomeLeader

def campaign (r : Raft) (next : Nat → Nat := (· + 1)) : Raft :=
  if r.cfg.preVote then
    let r := r.becomePreCandidate
    r.solicitVotes .preVote (next r.term) next
  else
    let r := r.becomeCandidate next
    r.solicitVotes .vote r.term next

def tickElection (r : Raft) (next : Nat → Nat := (· + 1)) : Raft :=
  let r := { r with electionElapsed := r.electionElapsed + 1 }
  if r.promotable && r.pastElectionTimeout then { r with electionElapsed := 0 }.campaign next else r

def tickHeartbeat (r : Raft) : Raft :=
  let r := { r with heartbeatElapsed := r.heartbeatElapsed + 1 }
  if r.heartbeatElapsed ≥ r.heartbeatTimeout then { r with heartbeatElapsed := 0 }.bcastHeartbeat
  else r

def tick (r : Raft) (next : Nat → Nat := (· + 1)) : Raft :=
  match r.state with
  | .leader => r.tickHeartbeat
  | _ => r.tickElection next

/-- Recovers term, vote and commit from storage and starts as a follower. -/
def newRaft (cfg : Config) (storage : Storage) (rand : Nat → Nat) : Raft :=
  let hs := storage.hardState
  let l := RaftLog.newLog storage
  let r : Raft :=
    { cfg := cfg, id := cfg.id, raftLog := l, peers := cfg.peers.insertionSort (· ≤ ·)
      heartbeatTimeout := cfg.heartbeatTicks, rand := rand, term := hs.term, vote := hs.vote }
  let r := if hs.commit > l.committed then { r with raftLog := l.commitTo hs.commit } else r
  let r := { r with prevHardSt := r.hardState }
  r.becomeFollower r.term None

end Raft
end Parallax
