import Std.Data.ExtTreeMap
import Parallax.Sim.Tracked

/-! sim/invariants.go: the checks of log matching and leader completeness that the simulator runs after its steps, with
the caches that they keep between calls. A map that is iterated comes in any order. -/
namespace Parallax.Sim
open Std (ExtTreeMap)

structure LogMark where
  term : Nat := 0
  digest : UInt64 := 0
  commitTerm : Nat := 0
  node : Nat := 0
  termKnown : Bool := false
  dataKnown : Bool := false
  deriving DecidableEq, Repr

structure DurableCache where
  generation : Nat := 0
  marks : ExtTreeMap Nat LogMark := ∅
  snapshotIndex : Nat := 0
  snapshotTerm : Nat := 0
  snapshotData : UInt64 := 0

structure LeaderCheck where
  generation : Nat
  committedVersion : Nat
  term : Nat
  deriving DecidableEq, Repr

/-- `newInvariants` is `{ peers }`. -/
structure Invariants where
  peers : List Nat
  committed : ExtTreeMap Nat LogMark := ∅
  markCache : ExtTreeMap Nat DurableCache := ∅
  commitCursor : ExtTreeMap Nat Nat := ∅
  sortedCommitted : List Nat := []
  sortedCommittedLen : Nat := 0
  committedVersion : Nat := 0
  leaderCheckState : ExtTreeMap Nat LeaderCheck := ∅

/-- What the checks ask a live node. -/
structure RaftNode where
  state : StateType
  term : Nat
  deriving DecidableEq, Repr

structure NodeState (σ : Type) where
  storage : TrackedStorage σ
  node : Option RaftNode := none
  crashed : Bool := false

inductive CheckErr
  | readSnapshot (id : Nat) (err : StorageErr)
  | readLastIndex (id : Nat) (err : StorageErr)
  | readFirstIndex (id : Nat) (err : StorageErr)
  | readEntries (id first last : Nat) (err : StorageErr)
  | snapshotAgreement (index : Nat) (prev mark : LogMark)
  | logMatching (index : Nat) (prev mark : LogMark) (id : Nat)
  | committedDivergence (prev : LogMark) (id : Nat) (got : CommittedRec)
  | conflictingIndex (leader term index : Nat) (got want : LogMark)
  | conflictingSnapshot (leader term index snapshotTerm wantTerm : Nat)
  | missingIndex (leader term index snapshotIndex : Nat)
  deriving DecidableEq, Repr

variable {σ : Type} (S : LogStorage σ)

def entryMark (id : Nat) (e : Entry) : LogMark :=
  { term := e.term, digest := fnv64 e.data, node := id, termKnown := true, dataKnown := true }

def marksOf (id : Nat) (entries : List Entry) : ExtTreeMap Nat LogMark :=
  entries.foldl (fun m e => m.insert e.index (entryMark id e)) ∅

/-- The marks of the entries, if there are any. -/
def readMarks (id first last : Nat) (s : σ) : Except CheckErr (ExtTreeMap Nat LogMark) :=
  if first > 0 ∧ first ≤ last then
    ((S.entries s first (last + 1)).mapError (.readEntries id first (last + 1))).map (marksOf id)
  else .ok ∅

/-- What `durableMarks` reads when it has nothing cached. -/
def readView (id generation : Nat) (s : σ) : Except CheckErr DurableCache := do
  let snapshot ← (S.snapshot s).mapError (.readSnapshot id)
  let last ← (S.lastIndex s).mapError (.readLastIndex id)
  let first ← (S.firstIndex s).mapError (.readFirstIndex id)
  let marks ← readMarks S id first last s
  pure {
    generation := generation
    marks := marks
    snapshotIndex := snapshot.metadata.index
    snapshotTerm := snapshot.metadata.term
    snapshotData := fnv64 snapshot.data }

namespace Invariants

def durableMarks (iv : Invariants) (ns : Option (NodeState σ)) (id : Nat) : Except CheckErr (DurableCache × Invariants) :=
  match ns with
  | none => .ok ({},iv)
  | some ns =>
    let read := (readView S id ns.storage.generation ns.storage.storage).map fun view =>
      (view,{ iv with markCache := iv.markCache.insert id view })
    match iv.markCache[id]? with
    | some cached => if cached.generation = ns.storage.generation then .ok (cached,iv) else read
    | none => read

def matchSnapshot (snapshots : ExtTreeMap Nat LogMark) (view : DurableCache) (id : Nat) :
    Except CheckErr (ExtTreeMap Nat LogMark) :=
  if view.snapshotIndex > 0 then
    let mark : LogMark :=
      { term := view.snapshotTerm, digest := view.snapshotData, node := id, termKnown := true, dataKnown := true }
    match snapshots[view.snapshotIndex]? with
    | some prev =>
      if prev.term ≠ mark.term ∨ prev.digest ≠ mark.digest then
        .error (.snapshotAgreement view.snapshotIndex prev mark)
      else .ok (snapshots.insert view.snapshotIndex mark)
    | none => .ok (snapshots.insert view.snapshotIndex mark)
  else .ok snapshots

def matchMark (id : Nat) (seen : ExtTreeMap Nat LogMark) (p : Nat × LogMark) : Except CheckErr (ExtTreeMap Nat LogMark) :=
  match seen[p.1]? with
  | none => .ok (seen.insert p.1 p.2)
  | some prev =>
    if prev.term = p.2.term ∧ prev.digest ≠ p.2.digest then .error (.logMatching p.1 prev p.2 id)
    -- The mark of the higher term is kept.
    else if p.2.term > prev.term then .ok (seen.insert p.1 p.2)
    else .ok seen

end Invariants

/-- An order for each iteration over a map of marks. -/
structure Iteration where
  order : Nat → List (Nat × LogMark) → List (Nat × LogMark)
  perm : ∀ id l, (order id l).Perm l

def Iteration.ascending : Iteration := ⟨fun _ l => l,fun _ _ => .refl _⟩

namespace Invariants

/-- The marks seen so far, the snapshots, and the caches. -/
abbrev Matching := ExtTreeMap Nat LogMark × ExtTreeMap Nat LogMark × Invariants

def matchPeer (nodes : Nat → Option (NodeState σ)) (it : Iteration) (acc : Matching) (id : Nat) :
    Except CheckErr Matching := do
  let (view,iv) ← acc.2.2.durableMarks S (nodes id) id
  let snapshots ← matchSnapshot acc.2.1 view id
  let seen ← (it.order id view.marks.toList).foldlM (matchMark id) acc.1
  pure (seen,snapshots,iv)

/-- The caches after the call, or the violation. -/
def checkLogMatching (iv : Invariants) (nodes : Nat → Option (NodeState σ)) (it : Iteration) :
    Except CheckErr Invariants :=
  (iv.peers.foldlM (matchPeer S nodes it) (∅,∅,iv)).map (·.2.2)

/-! A mark takes what a record knows better; the flag tells whether it has changed. -/

def learnTerm (rec : CommittedRec) (p : LogMark × Bool) : LogMark × Bool :=
  if !p.1.termKnown && rec.termKnown then ({ p.1 with term := rec.term, termKnown := true },true) else p

def learnDigest (rec : CommittedRec) (p : LogMark × Bool) : LogMark × Bool :=
  if !p.1.dataKnown && rec.dataKnown then ({ p.1 with digest := rec.digest, dataKnown := true },true) else p

def learnCommitTerm (rec : CommittedRec) (p : LogMark × Bool) : LogMark × Bool :=
  if p.1.commitTerm = 0 ∨ (rec.commitTerm ≠ 0 ∧ rec.commitTerm < p.1.commitTerm) then
    ({ p.1 with commitTerm := rec.commitTerm },true)
  else p

def enrich (prev : LogMark) (rec : CommittedRec) : LogMark × Bool :=
  learnCommitTerm rec (learnDigest rec (learnTerm rec (prev,false)))

def foldRecord (id : Nat) (iv : Invariants) (rec : CommittedRec) : Except CheckErr Invariants :=
  match iv.committed[rec.index]? with
  | some prev =>
    if (prev.termKnown ∧ rec.termKnown ∧ prev.term ≠ rec.term) ∨ (prev.dataKnown ∧ rec.dataKnown ∧ prev.digest ≠ rec.digest)
    then .error (.committedDivergence prev id rec)
    else
      let (mark,changed) := enrich prev rec
      if changed then
        .ok { iv with committed := iv.committed.insert rec.index mark, committedVersion := iv.committedVersion + 1 }
      else .ok iv
  | none =>
    let mark : LogMark := {
      term := rec.term
      digest := rec.digest
      commitTerm := rec.commitTerm
      node := id
      termKnown := rec.termKnown
      dataKnown := rec.dataKnown }
    .ok { iv with committed := iv.committed.insert rec.index mark, committedVersion := iv.committedVersion + 1 }

/-- The records of a node that are not folded yet. -/
def unfolded (iv : Invariants) (id : Nat) (records : List CommittedRec) : List CommittedRec :=
  let cur := iv.commitCursor.getD id 0
  records.drop (if cur > records.length then 0 else cur)

def foldPeer (nodes : Nat → Option (NodeState σ)) (iv : Invariants) (id : Nat) : Except CheckErr Invariants :=
  match nodes id with
  | none => .ok iv
  | some ns =>
    let records := ns.storage.committed
    ((iv.unfolded id records).foldlM (foldRecord id) iv).map fun iv =>
      { iv with commitCursor := iv.commitCursor.insert id records.length }

def sortCommitted (iv : Invariants) : Invariants :=
  if iv.committed.size ≠ iv.sortedCommittedLen then
    { iv with sortedCommitted := iv.committed.keys, sortedCommittedLen := iv.committed.size }
  else iv

/-- The term of a live leader, as far as it can be told. -/
def leading (ns : NodeState σ) : Option Nat :=
  match ns.node with
  | none => none
  | some node => if ns.crashed ∨ node.state ≠ .leader ∨ node.term = 0 then none else some node.term

def scanIndex (id term : Nat) (view : DurableCache) (index : Nat) (want : LogMark) : Except CheckErr Unit :=
  if want.commitTerm ≠ 0 ∧ want.commitTerm > term then .ok ()
  else
    match view.marks[index]? with
    | some got =>
      if (want.termKnown ∧ got.term ≠ want.term) ∨ (want.dataKnown ∧ got.digest ≠ want.digest) then
        .error (.conflictingIndex id term index got want)
      else .ok ()
    | none =>
      if view.snapshotIndex ≥ index then
        if view.snapshotIndex = index ∧ want.termKnown ∧ view.snapshotTerm ≠ want.term then
          .error (.conflictingSnapshot id term index view.snapshotTerm want.term)
        else .ok ()
      else .error (.missingIndex id term index view.snapshotIndex)

def checkLeader (nodes : Nat → Option (NodeState σ)) (iv : Invariants) (id : Nat) : Except CheckErr Invariants :=
  match nodes id with
  | none => .ok iv
  | some ns =>
    match leading ns with
    | none => .ok iv
    | some term =>
      let key : LeaderCheck :=
        { generation := ns.storage.generation, committedVersion := iv.committedVersion, term }
      if iv.leaderCheckState[id]? = some key then .ok iv
      else do
        let (view,iv) ← iv.durableMarks S (some ns) id
        iv.sortedCommitted.forM fun index => scanIndex id term view index (iv.committed.getD index {})
        pure { iv with leaderCheckState := iv.leaderCheckState.insert id key }

def checkLeaderCompleteness (iv : Invariants) (nodes : Nat → Option (NodeState σ)) : Except CheckErr Invariants := do
  let iv ← iv.peers.foldlM (foldPeer nodes) iv
  iv.peers.foldlM (checkLeader S nodes) iv.sortCommitted

end Invariants
end Parallax.Sim
