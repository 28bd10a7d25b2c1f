import Parallax.Raft.Step

/-! A cluster of nodes under the drivers of sim/loop.go and server/drive.go: every input is
followed by a drain (persist, send, apply, Advance), messages may be lost, duplicated and
reordered, and a node may crash between inputs or while a batch is being persisted. -/
namespace Parallax.Cluster

/-- The driver's application state machine. -/
structure App where
  State : Type
  init : State
  apply : State → Entry → State
  snapshot : State → Bytes
  restore : Bytes → Option State
  snapshot_ne : ∀ s, snapshot s ≠ []
  restore_snapshot : ∀ s, restore (snapshot s) = some s

/-- Fixed membership, one valid configuration for each member, and the application. -/
structure Setup where
  peers : List Nat
  cfg : Nat → Config
  app : App
  nodup : peers.Nodup
  cfg_id : ∀ n ∈ peers, (cfg n).id = n
  cfg_peers : ∀ n ∈ peers, (cfg n).peers.Perm peers
  cfg_valid : ∀ n ∈ peers, (cfg n).validate = .ok ()

/-- One redo record of a batch, in the order the driver writes them. -/
inductive Rec
  | entry (e : Entry)
  | hardState (st : HardState)
  deriving DecidableEq, Repr

def replayRec (s : Storage) : Rec → Storage
  | .entry e => match s.appendEntries [e] with
    | .ok s => s
    | .error _ => s
  | .hardState st => s.setHardState st

def replay (s : Storage) (recs : List Rec) : Storage := recs.foldl replayRec s

def records (rd : Ready) : List Rec :=
  rd.entries.map .entry ++ rd.hardState.toList.map .hardState

/-- Step (1) of the drain: snapshot, then entries, then hard state. -/
def persist (s : Storage) (rd : Ready) : Except StorageErr Storage :=
  match rd.snapshot.elim (.ok s) s.applySnapshot with
  | .error e => .error e
  | .ok s =>
    match s.appendEntries rd.entries with
    | .error e => .error e
    | .ok s => .ok (rd.hardState.elim s s.setHardState)

variable (A : App)

/-- The volatile half of a running node: core, application state, applied index, and the
records written since the last fsync. -/
structure Peer where
  raft : Raft
  sm : A.State
  applied : Nat := 0
  buf : List Rec := []

/-- A node: what survives a crash, and the volatile half while it is up. -/
structure Host where
  disk : Storage := {}
  vol : Option (Peer A) := none

variable {A}

namespace Peer

/-- `startNode`: the core over the recovered storage, the application from its snapshot.
`none` where construction fails. -/
def start (cfg : Config) (disk : Storage) (rand : Nat → Nat) : Option (Peer A) :=
  let r := Raft.newRaft cfg disk rand
  if r.failed then none
  else
    let snap := disk.snapshot
    if snap.metadata.index > 0 then
      if snap.data.length > 0 then
        (A.restore snap.data).map fun sm => { raft := r, sm := sm, applied := snap.metadata.index }
      else some { raft := r, sm := A.init, applied := snap.metadata.index }
    else some { raft := r, sm := A.init }

def applyEntry (p : Peer A) (e : Entry) : Peer A :=
  if e.index ≤ p.applied then p
  else { p with applied := e.index, sm := A.apply p.sm e }

/-- Snapshot part of step (3); `none` where the application refuses the data. -/
def applySnapshot (p : Peer A) (snap : Snapshot) : Option (Peer A) :=
  let applied := if snap.metadata.index > p.applied then snap.metadata.index else p.applied
  if snap.data.length > 0 then
    (A.restore snap.data).map fun sm => { p with sm := sm, applied := applied }
  else some { p with applied := applied }

/-- Steps (3) and (4) on the batch `rd`, persisted into `st`. -/
def finish (p : Peer A) (st : Storage) (rd : Ready) : Option (Peer A) :=
  (rd.snapshot.elim (some p) p.applySnapshot).bind fun p =>
    let p := rd.committedEntries.foldl applyEntry p
    let r := { p.raft with raftLog := { p.raft.raftLog with storage := st } }.advance rd
    if r.failed then none else some { p with raft := r }

end Peer

namespace Host

/-- One round of the drain loop. `flush` asks for an fsync the batch does not require.
A panic or a refused batch takes the node down. -/
def round (h : Host A) (p : Peer A) (flush : Bool) : Host A × Option Ready :=
  match p.raft.ready with
  | .error _ => ({ h with vol := none }, none)
  | .ok rd =>
    match persist p.raft.raftLog.storage rd with
    | .error _ => ({ h with vol := none }, none)
    | .ok st =>
      let synced := rd.mustSync || flush
      let buf := if synced then [] else p.buf ++ records rd
      ({ disk := if synced then st else h.disk
         vol := ({ p with buf := buf }).finish st rd }, some rd)

/-- The drain loop; one round empties it (`fuel` bounds the rounds of the definition). -/
def drain (flush : Bool) : Nat → Host A → Host A × List Ready
  | 0, h => (h, [])
  | fuel + 1, h =>
    match h.vol with
    | none => (h, [])
    | some p =>
      if p.raft.hasReady then
        let (h, rd) := h.round p flush
        let (h, rds) := h.drain flush fuel
        (h, rd.toList ++ rds)
      else (h, [])

/-- `maybeCompact` without its size policy: snapshot the applied prefix. -/
def compact (h : Host A) : Host A :=
  match h.vol with
  | none => h
  | some p =>
    let st := p.raft.raftLog.storage
    if p.applied ≤ st.snapshot.metadata.index then h
    else
      match st.term p.applied with
      | .error _ => h
      | .ok term =>
        let snap : Snapshot :=
          { metadata := { index := p.applied, term := term }, data := A.snapshot p.sm }
        match st.applySnapshot snap, h.disk.applySnapshot snap with
        | .ok st, .ok disk =>
          { disk := disk
            vol := some { p with raft := { p.raft with raftLog := { p.raft.raftLog with storage := st } } } }
        | _, _ => h

end Host

inductive Input
  | tick
  | step (m : Message)
  deriving DecidableEq, Repr

def Input.run (r : Raft) : Input → Raft
  | .tick => r.tick
  | .step m => (r.step m).1

def Input.message? : Input → Option Message
  | .tick => none
  | .step m => some m

/-- What a node did: the core after an input or (`none`) a start, and each batch once persisted. -/
inductive Obs
  | stepped (n : Nat) (i : Option Input) (r : Raft)
  | drained (n : Nat) (rd : Ready)

inductive Event
  /-- An input and its whole drain. -/
  | input (n : Nat) (i : Input) (flush : Bool)
  /-- An input, then a crash with the first `k` unsynced records of its batch on disk. -/
  | torn (n : Nat) (i : Input) (k : Nat)
  /-- An input, then a crash with its batch persisted and nothing sent or applied. -/
  | unsent (n : Nat) (i : Input)
  | crash (n : Nat)
  | restart (n : Nat) (rand : Nat → Nat)
  | compact (n : Nat)

/-- The node and the input of an event, if it has one. -/
def Event.input? : Event → Option (Nat × Input)
  | .input n i _ | .torn n i _ | .unsent n i => some (n,i)
  | .crash _ | .restart _ _ | .compact _ => none

/-- The records hand node `n` a message, and leave it with a core, that satisfy `P`. -/
def Handed (os : List Obs) (n : Nat) (P : Message → Raft → Prop) : Prop :=
  ∃ m r, .stepped n (some (.step m)) r ∈ os ∧ P m r

theorem Handed.mono {os os' : List Obs} {n : Nat} {P : Message → Raft → Prop} (h : Handed os n P) (hs : os ⊆ os') :
    Handed os' n P := by
  obtain ⟨m,r,hr,h⟩ := h
  exact ⟨m,r,hs hr,h⟩

/-- What `Handed` asks of one record. -/
def Obs.Hands (n : Nat) (P : Message → Raft → Prop) : Obs → Prop
  | .stepped n' (some (.step m)) r => n' = n ∧ P m r
  | _ => False

private theorem handed_iff {os : List Obs} {n : Nat} {P : Message → Raft → Prop} :
    (∃ o ∈ os, o.Hands n P) ↔ Handed os n P := by
  refine ⟨fun ⟨o,ho,h⟩ => ?_,fun ⟨m,r,ho,h⟩ => ⟨_,ho,rfl,h⟩⟩
  unfold Obs.Hands at h
  split at h
  · obtain ⟨rfl,h⟩ := h
    exact ⟨_,_,ho,h⟩
  · exact h.elim

instance (n : Nat) (P : Message → Raft → Prop) [∀ m r, Decidable (P m r)] : DecidablePred (Obs.Hands n P)
  | .stepped _ (some (.step _)) _ => inferInstanceAs (Decidable (_ ∧ _))
  | .stepped _ none _ | .stepped _ (some .tick) _ | .drained _ _ => isFalse id

instance (os : List Obs) (n : Nat) (P : Message → Raft → Prop) [∀ m r, Decidable (P m r)] : Decidable (Handed os n P) :=
  decidable_of_iff _ handed_iff

/-- Cluster state. `net` holds every message ever sent; `hist` is the history so far. -/
structure State (A : App) where
  host : Nat → Host A := fun _ => {}
  net : List Message := []
  hist : List Obs := []

/-- The message that the event hands to a running node, if any, satisfies `P` there. -/
def OnStep (P : Nat → Message → Peer A → Prop) (s : State A) (e : Event) : Prop :=
  ∀ n m p, e.input? = some (n,.step m) → (s.host n).vol = some p → P n m p

private theorem onStep_iff {P : Nat → Message → Peer A → Prop} {s : State A} {e : Event} :
    (∀ x ∈ e.input?, ∀ m ∈ x.2.message?, ∀ p ∈ (s.host x.1).vol, P x.1 m p) ↔ OnStep P s e := by
  refine ⟨fun h n m p he hp => h (n,.step m) he m rfl p hp,fun h x hx m hm p hp => ?_⟩
  obtain ⟨n,i⟩ := x
  cases i with
  | tick => cases hm
  | step m' =>
    obtain rfl := Option.some.inj hm
    exact h n _ p hx hp

instance (P : Nat → Message → Peer A → Prop) [∀ n m p, Decidable (P n m p)] (s : State A) (e : Event) :
    Decidable (OnStep P s e) := decidable_of_iff _ onStep_iff

namespace State

def setHost (s : State A) (n : Nat) (h : Host A) : State A :=
  { s with host := Function.update s.host n h }

/-- Local inputs may carry anything; a peer message must have been sent to the node. -/
def Admits (s : State A) (n : Nat) : Input → Prop
  | .tick => True
  | .step m => m.type = .propose ∨ m.type = .readIndex ∨ (m ∈ s.net ∧ m.dest = n)

instance (s : State A) (n : Nat) (i : Input) : Decidable (s.Admits n i) := by
  cases i <;> unfold Admits <;> infer_instance

def fuel : Nat := 4

/-- Effect of an event; a node that is down ignores inputs. -/
def next (S : Setup) (s : State S.app) : Event → State S.app
  | .input n i flush =>
    match (s.host n).vol with
    | none => s
    | some p =>
      let r := i.run p.raft
      let s := { s with hist := .stepped n (some i) r :: s.hist }
      if r.failed then s.setHost n { s.host n with vol := none }
      else
        let (h, rds) := ({ s.host n with vol := some { p with raft := r } } : Host S.app).drain flush fuel
        { s.setHost n h with
          net := rds.flatMap Ready.messages ++ s.net
          hist := rds.reverse.map (.drained n) ++ s.hist }
  | .torn n i k =>
    match (s.host n).vol with
    | none => s
    | some p =>
      let r := i.run p.raft
      let s := { s with hist := .stepped n (some i) r :: s.hist }
      let disk := match r.ready with
        | .error _ => (s.host n).disk
        | .ok rd =>
          match rd.snapshot with
          | some _ => (s.host n).disk
          | none => replay (s.host n).disk ((p.buf ++ records rd).take k)
      s.setHost n { disk := disk, vol := none }
  | .unsent n i =>
    match (s.host n).vol with
    | none => s
    | some p =>
      let r := i.run p.raft
      let s := { s with hist := .stepped n (some i) r :: s.hist }
      match r.ready with
      | .error _ => s.setHost n { s.host n with vol := none }
      | .ok rd =>
        match persist r.raftLog.storage rd with
        | .error _ => s.setHost n { s.host n with vol := none }
        | .ok st => { s.setHost n { disk := st, vol := none } with hist := .drained n rd :: s.hist }
  | .crash n => s.setHost n { s.host n with vol := none }
  | .restart n rand =>
    match (s.host n).vol, Peer.start (S.cfg n) (s.host n).disk rand with
    | none, some p =>
      { s.setHost n { s.host n with vol := some p } with hist := .stepped n none p.raft :: s.hist }
    | _, _ => s
  | .compact n => s.setHost n (s.host n).compact

/-- Whether the event can occur: a member acts, and a delivered message was sent. -/
def Enabled (S : Setup) (s : State S.app) : Event → Prop
  | .input n i _ | .torn n i _ | .unsent n i => n ∈ S.peers ∧ s.Admits n i
  | .crash n | .compact n | .restart n _ => n ∈ S.peers

instance (S : Setup) (s : State S.app) (e : Event) : Decidable (s.Enabled S e) := by
  cases e <;> unfold Enabled <;> infer_instance

theorem Enabled.input {S : Setup} {s : State S.app} {e : Event} (h : s.Enabled S e) {n : Nat} {i : Input}
    (he : e.input? = some (n,i)) : n ∈ S.peers ∧ s.Admits n i := by
  cases e <;> cases he <;> exact h

end State

/-- One step of the cluster. -/
inductive Step (S : Setup) : State S.app → State S.app → Prop
  | mk (s : State S.app) (e : Event) (h : s.Enabled S e) : Step S s (s.next S e)

/-- All nodes start down with empty storage. -/
inductive Reachable (S : Setup) : State S.app → Prop
  | init : Reachable S {}
  | step {s t : State S.app} : Reachable S s → Step S s t → Reachable S t

end Parallax.Cluster
