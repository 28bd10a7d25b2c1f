import Parallax.Raft.Storage

/-! raft/log.go: the unpersisted tail and the core's view of the replicated log. -/
namespace Parallax

/-- `entries[i]` has log index `offset + i`. -/
structure Unstable where
  snapshot : Option Snapshot := none
  entries : List Entry := []
  offset : Nat := 0
  deriving DecidableEq, Repr

namespace Unstable

def maybeFirstIndex (u : Unstable) : Option Nat := u.snapshot.map (·.metadata.index + 1)

def maybeLastIndex (u : Unstable) : Option Nat :=
  if u.entries.length ≠ 0 then some (u.offset + u.entries.length - 1)
  else u.snapshot.map (·.metadata.index)

def maybeTerm (u : Unstable) (i : Nat) : Option Nat :=
  if i < u.offset then
    match u.snapshot with
    | some s => if s.metadata.index = i then some s.metadata.term else none
    | none => none
  else match u.maybeLastIndex with
    | none => none
    | some last =>
      if i > last then none
      else match u.snapshot with
        | some s =>
          if i = s.metadata.index then some s.metadata.term
          else (u.entries[i - u.offset]?).map Entry.term
        | none => (u.entries[i - u.offset]?).map Entry.term

def stableTo (u : Unstable) (i t : Nat) : Unstable :=
  match u.maybeTerm i with
  | none => u
  | some gt =>
    if gt ≠ t ∨ i < u.offset then u
    else { u with entries := u.entries.drop (i + 1 - u.offset), offset := i + 1 }

def stableSnapTo (u : Unstable) (i : Nat) : Unstable :=
  match u.snapshot with
  | some s => if s.metadata.index = i then { u with snapshot := none } else u
  | none => u

def restore (_ : Unstable) (s : Snapshot) : Unstable :=
  { offset := s.metadata.index + 1, entries := [], snapshot := some s }

/-- `none` where the slice expression of the default branch is out of range. -/
def truncateAppend (u : Unstable) (ents : List Entry) : Option Unstable :=
  match ents with
  | [] => some u
  | e :: _ =>
    let first := e.index
    if first = u.offset + u.entries.length then some { u with entries := u.entries ++ ents }
    else if first ≤ u.offset then some { u with offset := first, entries := ents }
    else if first - u.offset ≤ u.entries.length then
      some { u with entries := u.entries.take (first - u.offset) ++ ents }
    else none

end Unstable

/-- A panic of the source is recorded in `panicked` and stops the driver. -/
structure RaftLog where
  storage : Storage
  unstable : Unstable
  committed : Nat
  applied : Nat
  panicked : Option Panic := none
  deriving DecidableEq, Repr

namespace RaftLog

def panic (l : RaftLog) (p : Panic) : RaftLog := { l with panicked := some p }

def newLog (storage : Storage) : RaftLog :=
  { storage := storage
    unstable := { offset := storage.lastIndex + 1 }
    committed := storage.firstIndex - 1
    applied := storage.firstIndex - 1 }

def firstIndex (l : RaftLog) : Nat :=
  match l.unstable.maybeFirstIndex with
  | some i => i
  | none => l.storage.firstIndex

def lastIndex (l : RaftLog) : Nat :=
  match l.unstable.maybeLastIndex with
  | some i => i
  | none => l.storage.lastIndex

/-- Outside the available range the source answers zero without an error. -/
def term (l : RaftLog) (i : Nat) : Except StorageErr Nat :=
  if i < l.firstIndex - 1 ∨ i > l.lastIndex then .ok 0
  else match l.unstable.maybeTerm i with
    | some t => .ok t
    | none => l.storage.term i

/-- An error here is the panic of the source's `lastTerm`. -/
def lastTerm (l : RaftLog) : Except StorageErr Nat := l.term l.lastIndex

def matchTerm (l : RaftLog) (i t : Nat) : Bool :=
  match l.term i with
  | .error _ => false
  | .ok gt => gt == t

def append (l : RaftLog) (ents : List Entry) : RaftLog :=
  match l.unstable.truncateAppend ents with
  | some u => { l with unstable := u }
  | none => l.panic .outOfRange

def findConflict (l : RaftLog) : List Entry → Nat
  | [] => 0
  | e :: es => if l.matchTerm e.index e.term then l.findConflict es else e.index

def commitTo (l : RaftLog) (tocommit : Nat) : RaftLog :=
  if l.committed < tocommit then
    if tocommit > l.lastIndex then l.panic .commitOutOfRange
    else { l with committed := tocommit }
  else l

/-- The new log, and the index of the last new entry when the preceding entry matches. -/
def maybeAppend (l : RaftLog) (index logTerm committed : Nat) (ents : List Entry) :
    RaftLog × Option Nat :=
  if l.matchTerm index logTerm then
    let lastnewi := index + ents.length
    let conflict := l.findConflict ents
    let l :=
      if conflict = 0 then l
      else if conflict ≤ l.committed then l.panic .conflictAtCommitted
      else l.append (ents.drop (conflict - (index + 1)))
    (l.commitTo (min committed lastnewi), some lastnewi)
  else (l, none)

def appliedTo (l : RaftLog) (i : Nat) : RaftLog :=
  if i = 0 then l
  else if l.committed < i ∨ i < l.applied then l.panic .appliedOutOfRange
  else { l with applied := i }

def stableTo (l : RaftLog) (i t : Nat) : RaftLog := { l with unstable := l.unstable.stableTo i t }

def stableSnapTo (l : RaftLog) (i : Nat) : RaftLog :=
  { l with unstable := l.unstable.stableSnapTo i }

def restore (l : RaftLog) (s : Snapshot) : RaftLog :=
  { l with
    committed := s.metadata.index
    applied := if l.applied < s.metadata.index then s.metadata.index else l.applied
    unstable := l.unstable.restore s }

/-- An error `outOfRange` is the panic of the slice expression on the unstable entries, which a range that starts beyond the
log meets. -/
def slice (l : RaftLog) (lo hi : Nat) : Except StorageErr (List Entry) :=
  if lo ≥ hi then .ok []
  else if lo < l.firstIndex then .error .compacted
  else
    let hi := if hi > l.lastIndex + 1 then l.lastIndex + 1 else hi
    let uoff := l.unstable.offset
    let stored := if lo < uoff then l.storage.entriesIn lo (min hi uoff) else .ok []
    match stored with
    | .error e => .error e
    | .ok se =>
      if hi > uoff then
        let ulo := max lo uoff
        if ulo ≤ hi ∧ hi - uoff ≤ l.unstable.entries.length then
          .ok (se ++ (l.unstable.entries.take (hi - uoff)).drop (ulo - uoff))
        else .error .outOfRange
      else .ok se

/-- An error is the panic of the source's `nextCommittedEnts`. -/
def nextCommittedEnts (l : RaftLog) : Except StorageErr (List Entry) :=
  let lo := l.applied + 1
  let hi := l.committed + 1
  if lo ≥ hi then .ok []
  else
    let lo := if lo < l.firstIndex then l.firstIndex else lo
    if lo ≥ hi then .ok [] else l.slice lo hi

def hasNextCommittedEnts (l : RaftLog) : Bool :=
  l.committed + 1 > max (l.applied + 1) l.firstIndex

/-- `lasti` and `term` describe the candidate's log, `lastTerm` is this log's own. -/
def isUpToDate (l : RaftLog) (lastTerm lasti term : Nat) : Bool :=
  term > lastTerm || (term == lastTerm && lasti ≥ l.lastIndex)

def maybeCommit (l : RaftLog) (maxIndex term : Nat) : RaftLog × Bool :=
  if maxIndex > l.committed then
    -- The source drops the error of `l.term`; the value beside an error is zero.
    let t := match l.term maxIndex with
      | .ok t => t
      | .error _ => 0
    if t = term then (l.commitTo maxIndex, true) else (l, false)
  else (l, false)

end RaftLog
end Parallax
