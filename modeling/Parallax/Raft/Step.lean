import Parallax.Raft.Core

/-! raft/step.go and raft/handlers.go: the term rules and the role handlers. -/
namespace Parallax
namespace Raft

/-- Loop of `findConflictByTerm`, downwards on the index. -/
def findConflictByTerm (r : Raft) : Nat → Nat → Nat × Nat
  | 0, _ => (0, 0)
  | index + 1, term =>
    match r.raftLog.term (index + 1) with
    | .error _ => (index + 1, 0)
    | .ok t => if t ≤ term then (index + 1, t) else r.findConflictByTerm index term

def handleAppend (r : Raft) (m : Message) : Raft :=
  if m.logIndex < r.raftLog.committed then
    r.send { dest := m.sender, type := .appendResp, logIndex := r.raftLog.committed }
  else
    match r.raftLog.maybeAppend m.logIndex m.logTerm m.commit m.entries with
    | (l, some mlastIndex) =>
      { r with raftLog := l }.send { dest := m.sender, type := .appendResp, logIndex := mlastIndex }
    | (_, none) =>
      let hint := r.findConflictByTerm (min m.logIndex r.raftLog.lastIndex) m.logTerm
      r.send { dest := m.sender, type := .appendResp, logIndex := m.logIndex, reject := true,
               rejectHint := hint.1, hintTerm := hint.2 }

def handleHeartbeat (r : Raft) (m : Message) : Raft :=
  let l := r.raftLog.commitTo (min m.commit r.raftLog.lastIndex)
  { r with raftLog := l }.send { dest := m.sender, type := .heartbeatResp, context := m.context }

/-- `restore`: the new log and whether the snapshot replaced it. -/
def restore (r : Raft) (snap : Snapshot) : Raft × Bool :=
  if snap.metadata.index ≤ r.raftLog.committed then (r, false)
  else if r.raftLog.matchTerm snap.metadata.index snap.metadata.term then
    ({ r with raftLog := r.raftLog.commitTo snap.metadata.index }, false)
  else ({ r with raftLog := r.raftLog.restore snap }, true)

def handleSnapshot (r : Raft) (m : Message) : Raft :=
  match m.snapshot with
  | none => r
  | some snap =>
    match r.restore snap with
    | (r, true) =>
      r.send { dest := m.sender, type := .installSnapshotResp, logIndex := r.raftLog.lastIndex }
    | (r, false) =>
      r.send { dest := m.sender, type := .installSnapshotResp, logIndex := r.raftLog.committed }

def stepFollower (r : Raft) (m : Message) : Raft :=
  match m.type with
  | .append => { r with electionElapsed := 0, lead := m.sender }.handleAppend m
  | .heartbeat => { r with electionElapsed := 0, lead := m.sender }.handleHeartbeat m
  | .installSnapshot => { r with electionElapsed := 0, lead := m.sender }.handleSnapshot m
  | _ => r

/-- The ballot of a (pre-)vote response and its consequences. -/
def handleVoteResp (r : Raft) (m : Message) (next : Nat → Nat := (· + 1)) : Raft :=
  let r := r.recordVote m.sender (!m.reject)
  if r.tallyGranted ≥ r.quorum then
    if r.state = .preCandidate then
      let r := r.becomeCandidate next
      r.solicitVotes .vote r.term next
    else r.becomeLeader.bcastAppend
  else if r.tallyRejected ≥ r.quorum then r.becomeFollower r.term None
  else r

def stepCandidate (r : Raft) (m : Message) (next : Nat → Nat := (· + 1)) : Raft :=
  let myVoteResp := if r.state = .preCandidate then MessageType.preVoteResp else .voteResp
  match m.type with
  | .append => (r.becomeFollower m.term m.sender).handleAppend m
  | .heartbeat => (r.becomeFollower m.term m.sender).handleHeartbeat m
  | .installSnapshot => (r.becomeFollower m.term m.sender).handleSnapshot m
  | t => if t = myVoteResp then r.handleVoteResp m next else r

/-- Loop of `decrHint`, downwards on the hint. -/
def scanHint (r : Raft) (hintTerm : Nat) : Nat → Nat
  | 0 => 0
  | hint + 1 =>
    match r.raftLog.term (hint + 1) with
    | .error _ => hint + 1
    | .ok t => if t ≤ hintTerm then hint + 1 else r.scanHint hintTerm hint

def decrHint (r : Raft) (m : Message) : Nat :=
  if m.hintTerm > 0 then
    r.scanHint m.hintTerm (if m.rejectHint > r.raftLog.lastIndex then r.raftLog.lastIndex else m.rejectHint)
  else m.rejectHint

def handleAppendResp (r : Raft) (m : Message) : Raft :=
  match r.prs.lookup m.sender with
  | none => r
  | some pr =>
    if m.reject then
      match pr.maybeDecrTo m.logIndex (r.decrHint m) with
      | (pr, true) => { r with prs := r.prs.insert m.sender pr }.sendAppend m.sender
      | (_, false) => r
    else
      match pr.maybeUpdate m.logIndex with
      | (pr, true) =>
        match { r with prs := r.prs.insert m.sender pr }.maybeCommit with
        | (r, true) => r.bcastAppend
        | (r, false) => r
      | (pr, false) => { r with prs := r.prs.insert m.sender pr }

/-- First half of `handleHeartbeatResp`: a lagging follower is sent entries. -/
def catchUp (r : Raft) (id : Nat) : Raft :=
  match r.prs.lookup id with
  | none => r
  | some pr => if pr.matched < r.raftLog.lastIndex then r.sendAppend id else r

/-- Second half of `handleHeartbeatResp`: a confirmed context releases the reads up to it. -/
def confirmReads (r : Raft) (m : Message) : Raft :=
  if m.context.length = 0 then r
  else
    let acked := r.readOnly.recvAck m.sender m.context
    let r := { r with readOnly := acked.1 }
    if acked.2 < r.quorum then r
    else
      let released := r.readOnly.advance m.context
      { r with
        readOnly := released.1
        readStates := r.readStates ++ released.2.map fun rs =>
          { index := rs.index, requestCtx := rs.req.context } }

def handleHeartbeatResp (r : Raft) (m : Message) : Raft := (r.catchUp m.sender).confirmReads m

def stepLeader (r : Raft) (m : Message) : Raft :=
  match m.type with
  | .appendResp => r.handleAppendResp m
  | .heartbeatResp => r.handleHeartbeatResp m
  | .installSnapshotResp =>
    match r.prs.lookup m.sender with
    | none => r
    | some pr =>
      { r with prs := r.prs.insert m.sender (pr.maybeUpdate m.logIndex).1 }.sendAppend m.sender
  | _ => r

def msgRespType : MessageType → MessageType
  | .append => .appendResp
  | .heartbeat => .heartbeatResp
  | .installSnapshot => .installSnapshotResp
  | _ => .unknown

def handleVoteRequest (r : Raft) (m : Message) : Raft :=
  match r.raftLog.lastTerm with
  | .error _ => r.panic .lastTerm
  | .ok lt =>
    let upToDate := r.raftLog.isUpToDate lt m.logIndex m.logTerm
    if m.type = .preVote then
      let grant := upToDate && decide (m.term > r.term)
      r.send { dest := m.sender, type := .preVoteResp, reject := !grant, term := m.term }
    else
      let canVote := r.vote == m.sender || (r.vote == None && r.lead == None) || decide (m.term > r.term)
      if canVote && upToDate then
        { r with vote := m.sender, electionElapsed := 0 }.send
          { dest := m.sender, type := .voteResp, reject := false }
      else r.send { dest := m.sender, type := .voteResp, reject := true }

/-- The error is the source's ErrNotLeader. -/
def stepPropose (r : Raft) (m : Message) : Raft × Bool :=
  if r.state ≠ .leader then (r, false)
  else if m.entries.length = 0 then (r, true)
  else ((r.appendEntry (m.entries.map fun e => { e with type := .normal })).bcastAppend, true)

def stepReadIndex (r : Raft) (m : Message) : Raft × Bool :=
  if r.state ≠ .leader then (r, false)
  else if r.committedEntryInCurrentTerm then (r.sendReadIndex m, true)
  else ({ r with pendingReadIndexMessages := r.pendingReadIndexMessages ++ [m] }, true)

/-- Leader stickiness: a live leader is backed and the election timer has not run out. -/
def sticky (r : Raft) (m : Message) : Bool :=
  (m.type == .vote || m.type == .preVote) && r.lead != None && r.vote != m.sender &&
    decide (r.electionElapsed < r.cfg.electionTicks)

def rejectSticky (r : Raft) (m : Message) : Raft :=
  if m.type = .preVote then
    r.send { dest := m.sender, type := .preVoteResp, reject := true, term := m.term }
  else r.send { dest := m.sender, type := .voteResp, reject := true, term := r.term }

/-- Answer to a message of a term already left behind. -/
def rejectStale (r : Raft) (m : Message) : Raft :=
  match m.type with
  | .append | .heartbeat | .installSnapshot => r.send { dest := m.sender, type := msgRespType m.type }
  | .preVote => r.send { dest := m.sender, type := .preVoteResp, term := r.term, reject := true }
  | _ => r

/-- Dispatch after the term rules. -/
def stepRole (r : Raft) (m : Message) (next : Nat → Nat := (· + 1)) : Raft :=
  match m.type with
  | .preVote | .vote => r.handleVoteRequest m
  | _ =>
    match r.state with
    | .follower => r.stepFollower m
    | .preCandidate | .candidate => r.stepCandidate m next
    | .leader => r.stepLeader m

/-- The higher-term rule; a pre-vote and a granted pre-vote response leave the term alone. -/
def adoptTerm (r : Raft) (m : Message) : Raft :=
  if m.type = .preVote then r
  else if m.type = .preVoteResp ∧ m.reject = false then r
  else r.becomeFollower m.term (if m.type = .vote then None else m.sender)

/-- `Step`; the second component is false where the source returns ErrNotLeader. -/
def step (r : Raft) (m : Message) (next : Nat → Nat := (· + 1)) : Raft × Bool :=
  match m.type with
  | .propose => r.stepPropose m
  | .readIndex => r.stepReadIndex m
  | _ =>
    if r.sticky m then (r.rejectSticky m, true)
    else if m.term = 0 then (r.stepRole m next, true)
    else if m.term > r.term then ((r.adoptTerm m).stepRole m next, true)
    else if m.term < r.term then (r.rejectStale m, true)
    else (r.stepRole m next, true)

end Raft

/-- A batch of outputs for the driver. -/
structure Ready where
  hardState : Option HardState := none
  entries : List Entry := []
  snapshot : Option Snapshot := none
  committedEntries : List Entry := []
  messages : List Message := []
  readStates : List ReadState := []
  mustSync : Bool := false
  deriving DecidableEq, Repr

namespace Raft

/-- `HasReady` while no batch is outstanding. -/
def hasReady (r : Raft) : Bool :=
  r.msgs.length > 0 || r.readStates.length > 0 || r.raftLog.unstable.entries.length > 0 ||
    r.raftLog.unstable.snapshot.isSome || r.raftLog.hasNextCommittedEnts || r.hardState != r.prevHardSt

/-- The batch; an error is a panic of `nextCommittedEnts`. -/
def ready (r : Raft) : Except StorageErr Ready :=
  match r.raftLog.nextCommittedEnts with
  | .error e => .error e
  | .ok committed =>
    let ents := r.raftLog.unstable.entries
    let hs := if r.hardState ≠ r.prevHardSt then some r.hardState else none
    .ok
      { messages := r.msgs
        committedEntries := committed
        readStates := r.readStates
        entries := ents
        snapshot := r.raftLog.unstable.snapshot
        hardState := hs
        mustSync := ents.length > 0 || r.raftLog.unstable.snapshot.isSome ||
          hs.any fun h => h.term != r.prevHardSt.term || h.vote != r.prevHardSt.vote }

/-- `Advance` for the outstanding batch `rd`. -/
def advance (r : Raft) (rd : Ready) : Raft :=
  let l := r.raftLog
  let l := rd.entries.getLast?.elim l fun last => l.stableTo last.index last.term
  let l := rd.snapshot.elim l fun s => l.stableSnapTo s.metadata.index
  let l := rd.committedEntries.getLast?.elim l fun last => l.appliedTo last.index
  { r with
    prevHardSt := rd.hardState.getD r.prevHardSt
    raftLog := l
    msgs := []
    readStates := [] }

end Raft
end Parallax
