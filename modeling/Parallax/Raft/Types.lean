import Mathlib.Data.List.AList

/-! Data model of package raft: messages, log entries, hard state and snapshots.
Node IDs, terms and indices are the source's uint64 counters, read as naturals. -/
namespace Parallax

/-- Go byte slices and strings; nil and empty are told apart only where the source does. -/
abbrev Bytes := List UInt8

/-- Input and output kinds of the state machine, in the order of the source's constants. -/
inductive MessageType
  | unknown
  | propose | readIndex
  | preVote | preVoteResp | vote | voteResp
  | append | appendResp | heartbeat | heartbeatResp
  | installSnapshot | installSnapshotResp
  deriving DecidableEq, Repr

/-- `EntryType` is a byte with two named values; a decoded record may hold any other. -/
inductive EntryType
  | normal | noop
  | other (b : {b : UInt8 // 2 ≤ b})
  deriving DecidableEq, Repr

structure Entry where
  term : Nat := 0
  index : Nat := 0
  type : EntryType := .normal
  data : Bytes := []
  deriving DecidableEq, Repr

structure HardState where
  term : Nat := 0
  vote : Nat := 0
  commit : Nat := 0
  deriving DecidableEq, Repr

structure SnapshotMetadata where
  index : Nat := 0
  term : Nat := 0
  deriving DecidableEq, Repr

structure Snapshot where
  metadata : SnapshotMetadata := {}
  data : Bytes := []
  deriving DecidableEq, Repr

/-- The single envelope for inputs and outputs; `sender` and `dest` are its From and To. -/
structure Message where
  type : MessageType := .unknown
  sender : Nat := 0
  dest : Nat := 0
  term : Nat := 0
  logIndex : Nat := 0
  logTerm : Nat := 0
  entries : List Entry := []
  commit : Nat := 0
  reject : Bool := false
  rejectHint : Nat := 0
  hintTerm : Nat := 0
  snapshot : Option Snapshot := none
  context : Bytes := []
  deriving DecidableEq, Repr

structure ReadState where
  index : Nat
  requestCtx : Bytes
  deriving DecidableEq, Repr

inductive StateType
  | follower | preCandidate | candidate | leader
  deriving DecidableEq, Repr

/-- `None`, the sentinel for "no leader" and "no vote". -/
abbrev None : Nat := 0

/-- Sentinel errors of `LogStorage`. `outOfRange` stands for a slice expression
that would panic at run time. -/
inductive StorageErr
  | compacted | unavailable | outOfRange
  deriving DecidableEq, Repr

/-- The core's panics, one constructor for each site. -/
inductive Panic
  | conflictAtCommitted | commitOutOfRange | appliedOutOfRange
  | leaderToPreCandidate | leaderToCandidate | followerToLeader
  | lastTerm | committedSlice | outOfRange | nilProgress | nilReadStatus
  deriving DecidableEq, Repr

/-- Parameters of a node. Tick counts are positive in every valid configuration; a
non-positive `MaxEntriesPerAppend` means no limit and is read as zero. The injected
randomness is a stream held in the core's state. -/
structure Config where
  id : Nat
  peers : List Nat
  electionTicks : Nat
  heartbeatTicks : Nat
  maxEntriesPerAppend : Nat := 0
  preVote : Bool := false
  deriving DecidableEq, Repr

namespace Config

/-- The loop of `validate` over the peers: positive, unique, and whether `id` occurs. -/
def validatePeers (id : Nat) (found : Bool) (seen : List Nat) : List Nat → Except String Bool
  | [] => .ok found
  | p :: ps =>
    if p = 0 then .error "raft: peer IDs must be positive"
    else if p ∈ seen then .error "raft: peer IDs must be unique"
    else validatePeers id (found || p == id) (p :: seen) ps

def validate (c : Config) : Except String Unit :=
  if c.id = 0 then .error "raft: Config.ID must be positive"
  else if c.electionTicks ≤ c.heartbeatTicks then
    .error "raft: ElectionTicks must exceed HeartbeatTicks"
  else if c.heartbeatTicks = 0 then .error "raft: HeartbeatTicks must be positive"
  else match validatePeers c.id false [] c.peers with
    | .error e => .error e
    | .ok true => .ok ()
    | .ok false => .error "raft: Config.Peers must include Config.ID"

end Config
end Parallax
