import Parallax.Cluster.Model

/-! sim/event.go, sim/loop.go and sim/sim.go: the simulator's event queue, its tick timers, and the calls that step the
simulator and that crash and restart nodes. What nodes, network and clients do when an event fires is a parameter. -/
namespace Parallax.Loop

/-- Nanoseconds. -/
abbrev VirtualTime := Int

/-- What an event does when it fires: the tick of a node, or a delivery, an operation or a retry of a client. -/
inductive Action (π : Type) where
  | tick (id : Nat)
  | other (p : π)
  deriving DecidableEq, Repr

structure Event (π : Type) where
  time : VirtualTime
  seq : Nat
  action : Action π
  deriving DecidableEq, Repr

variable {σ π : Type}

namespace Event

def less (a b : Event π) : Bool := if a.time ≠ b.time then a.time < b.time else a.seq < b.seq

def isTick (id : Nat) (e : Event π) : Bool :=
  match e.action with
  | .tick id' => id' = id
  | .other _ => false

end Event

/-- The earliest event, and the others. -/
def pop : List (Event π) → Option (Event π × List (Event π))
  | [] => none
  | e :: q =>
    match pop q with
    | none => some (e,[])
    | some (m,r) => if m.less e then some (m,e :: r) else some (e,q)

private theorem pop_eq_none {q : List (Event π)} : pop q = none ↔ q = [] := by
  cases q with
  | nil => simp [pop]
  | cons e q =>
    rw [pop]
    split
    · simp
    · split <;> simp

/-- The others stay in their order. -/
theorem pop_split {q r : List (Event π)} {e : Event π} (h : pop q = some (e,r)) :
    ∃ xs ys, q = xs ++ e :: ys ∧ r = xs ++ ys := by
  induction q generalizing e r with
  | nil => cases h
  | cons x q ih =>
    rw [pop] at h
    split at h
    · rename_i hq
      obtain ⟨rfl,rfl⟩ := Prod.mk.inj (Option.some.inj h)
      exact ⟨[],[],by rw [pop_eq_none.mp hq]; rfl,rfl⟩
    rename_i m r' hq
    split at h
    · obtain ⟨rfl,rfl⟩ := Prod.mk.inj (Option.some.inj h)
      obtain ⟨xs,ys,rfl,rfl⟩ := ih hq
      exact ⟨x :: xs,ys,rfl,rfl⟩
    · obtain ⟨rfl,rfl⟩ := Prod.mk.inj (Option.some.inj h)
      exact ⟨[],q,rfl,rfl⟩

theorem Event.time_le_of_less {a b : Event π} (h : a.less b = true) : a.time ≤ b.time := by
  unfold less at h
  split at h
  · exact Int.le_of_lt (of_decide_eq_true h)
  · rename_i heq
    exact Int.le_of_eq (Decidable.not_not.mp heq)

theorem Event.time_le_of_not_less {a b : Event π} (h : ¬ a.less b = true) : b.time ≤ a.time := by
  unfold less at h
  split at h
  · exact Int.not_lt.mp fun hlt => h (decide_eq_true hlt)
  · rename_i heq
    exact Int.le_of_eq (Decidable.not_not.mp heq).symm

theorem pop_min {q r : List (Event π)} {e : Event π} (h : pop q = some (e,r)) : ∀ x ∈ r, e.time ≤ x.time := by
  induction q generalizing e r with
  | nil => cases h
  | cons y q ih =>
    rw [pop] at h
    split at h
    · obtain ⟨rfl,rfl⟩ := Prod.mk.inj (Option.some.inj h)
      simp
    rename_i m r' hq
    have hm := ih hq
    split at h
    · rename_i hless
      obtain ⟨rfl,rfl⟩ := Prod.mk.inj (Option.some.inj h)
      intro x hx
      rcases List.mem_cons.mp hx with rfl | hx
      · exact Event.time_le_of_less hless
      · exact hm x hx
    rename_i hless
    obtain ⟨rfl,rfl⟩ := Prod.mk.inj (Option.some.inj h)
    have hle := Event.time_le_of_not_less hless
    obtain ⟨xs,ys,rfl,rfl⟩ := pop_split hq
    intro x hx
    rcases List.mem_append.mp hx with hx | hx
    · exact Int.le_trans hle (hm x (List.mem_append_left _ hx))
    rcases List.mem_cons.mp hx with rfl | hx
    · exact hle
    · exact Int.le_trans hle (hm x (List.mem_append_right _ hx))

structure Config where
  nodes : Int
  electionTicks : Int
  heartbeatTicks : Int
  tickEvery : VirtualTime
  deriving DecidableEq, Repr

inductive NewErr where
  | nodes (got : Int)
  | electionTicks (got heartbeatTicks : Int)
  | heartbeatTicks (got : Int)
  | tickEvery (got : VirtualTime)
  | starting (id : Nat)
  deriving DecidableEq, Repr

/-- The checks that do not concern network and workload. -/
def Config.validate (c : Config) : Except NewErr Unit :=
  if c.nodes ≤ 0 then .error (.nodes c.nodes)
  else if c.electionTicks ≤ c.heartbeatTicks then .error (.electionTicks c.electionTicks c.heartbeatTicks)
  else if c.heartbeatTicks ≤ 0 then .error (.heartbeatTicks c.heartbeatTicks)
  else if c.tickEvery ≤ 0 then .error (.tickEvery c.tickEvery)
  else .ok ()

theorem Config.tickEvery_pos {c : Config} {u : Unit} (h : c.validate = .ok u) : 0 < c.tickEvery := by
  refine Int.not_le.mp fun hle => ?_
  unfold validate at h
  rw [if_pos hle] at h
  repeat' split at h
  all_goals cases h

/-- A raft node as far as its clock goes: when it was built, and how often it was ticked. -/
structure Timer where
  born : VirtualTime
  ticks : Nat := 0
  deriving DecidableEq, Repr

structure NodeState where
  node : Option Timer := none
  crashed : Bool := false
  deriving DecidableEq, Repr

/-- The node if it is up. -/
def NodeState.up? (ns : NodeState) : Option Timer := if ns.crashed then none else ns.node

/-- `rest` is everything else: cores, storages, random source, network, clients, checkers. -/
structure Simulator (σ π : Type) where
  cfg : Config
  now : VirtualTime := 0
  seq : Nat := 0
  queue : List (Event π) := []
  peers : List Nat := []
  nodes : Nat → NodeState := fun _ => {}
  rest : σ

/-- What an action does to clock and queue: it schedules another event, or takes a sequence number for the trace. -/
inductive Call (π : Type) where
  | schedule (after : VirtualTime) (p : π)
  | recordControl
  deriving DecidableEq, Repr

/-- What actions see of the simulator beside the rest. -/
structure Sight where
  now : VirtualTime
  live : Nat → Bool

/-- How `startNode` ends. It may fail before or after the node is built. -/
inductive Started (σ : Type) where
  | ok (rest : σ)
  | failed (rest : σ) (built : Bool)

/-- Nodes, network and clients. No call of theirs schedules a tick. -/
structure Harness (σ π : Type) where
  startNode : Sight → Nat → σ → Started σ
  startWorkload : σ → σ × List (Call π)
  /-- `Tick` of the node and its drain. -/
  tick : Sight → Nat → σ → σ × List (Call π)
  fire : Sight → π → σ → σ × List (Call π)
  drain : Sight → Nat → σ → σ × List (Call π)
  crash : Nat → σ → σ
  check : Sight → σ → σ

namespace Simulator
variable (H : Harness σ π) (s : Simulator σ π)

def sight : Sight := ⟨s.now,fun id => (s.nodes id).up?.isSome⟩

def setNode (id : Nat) (ns : NodeState) : Simulator σ π := { s with nodes := Function.update s.nodes id ns }

def schedule (after : VirtualTime) (action : Action π) : Simulator σ π :=
  { s with seq := s.seq + 1, queue := ⟨s.now + after,s.seq + 1,action⟩ :: s.queue }

def recordControl : Simulator σ π := { s with seq := s.seq + 1 }

def scheduleTick (id : Nat) : Simulator σ π := s.schedule s.cfg.tickEvery (.tick id)

def call (s : Simulator σ π) : Call π → Simulator σ π
  | .schedule after p => s.schedule after (.other p)
  | .recordControl => s.recordControl

/-- The calls of an action. -/
def perform (x : σ × List (Call π)) : Simulator σ π := x.2.foldl call { s with rest := x.1 }

/-- The node that `startNode` builds. -/
def build (id : Nat) : Simulator σ π := s.setNode id { node := some { born := s.now } }

def startAll (s : Simulator σ π) : List Nat → Except NewErr (Simulator σ π)
  | [] => .ok s
  | id :: ids =>
    match H.startNode s.sight id s.rest with
    | .failed _ _ => .error (.starting id)
    | .ok rest => startAll ({ s with rest }.build id) ids

def new (cfg : Config) (H : Harness σ π) (rest : σ) : Except NewErr (Simulator σ π) :=
  match cfg.validate with
  | .error err => .error err
  | .ok _ =>
    let peers := (List.range cfg.nodes.toNat).map (· + 1)
    match startAll H { cfg, peers, rest } peers with
    | .error err => .error err
    | .ok s =>
      let s := peers.foldl scheduleTick s
      .ok (s.perform (H.startWorkload s.rest))

/-- A tick re-arms itself as long as the node is up. -/
def fireTick (id : Nat) : Simulator σ π :=
  match (s.nodes id).up? with
  | none => s
  | some t =>
    ((s.setNode id { node := some { t with ticks := t.ticks + 1 } }).perform (H.tick s.sight id s.rest)).scheduleTick id

def fire (s : Simulator σ π) : Action π → Simulator σ π
  | .tick id => s.fireTick H id
  | .other p => s.perform (H.fire s.sight p s.rest)

def step : Simulator σ π :=
  match pop s.queue with
  | none => s
  | some (e,queue) =>
    let s := { s with now := e.time, queue }.fire H e.action
    { s with rest := H.check s.sight s.rest }

def crash (id : Nat) : Simulator σ π :=
  if id ∉ s.peers ∨ (s.nodes id).crashed then s
  else { s with rest := H.crash id s.rest }.setNode id { crashed := true } |>.recordControl

def restart (id : Nat) : Simulator σ π :=
  if id ∉ s.peers ∨ ¬ (s.nodes id).crashed then s
  else
    match H.startNode s.sight id s.rest with
    | .failed rest built => if built then { s with rest }.build id else { s with rest }.setNode id {}
    | .ok rest =>
      let s := ({ s with rest }.build id).recordControl.scheduleTick id
      s.perform (H.drain s.sight id s.rest)

end Simulator

inductive Op where
  | step
  | crash (id : Nat)
  | restart (id : Nat)
  deriving DecidableEq, Repr

namespace Simulator

def op (H : Harness σ π) (s : Simulator σ π) : Op → Simulator σ π
  | .step => s.step H
  | .crash id => s.crash H id
  | .restart id => s.restart H id

def run (H : Harness σ π) (s : Simulator σ π) (ops : List Op) : Simulator σ π := ops.foldl (op H) s

end Simulator

section core
open Cluster (Setup Host Peer)
variable (S : Setup) (delay : VirtualTime)

/-- `drain` with a network that delivers every message once. -/
def drained (id : Nat) (hosts : Nat → Host S.app) : (Nat → Host S.app) × List (Call Message) :=
  let (h,rds) := (hosts id).drain true Cluster.State.fuel
  (Function.update hosts id h,
    (rds.flatMap Ready.messages).map fun m => .schedule (if m.dest = id then 0 else delay) m)

def input (id : Nat) (i : Cluster.Input) (hosts : Nat → Host S.app) : (Nat → Host S.app) × List (Call Message) :=
  match (hosts id).vol with
  | none => (hosts,[])
  | some p => drained S delay id (Function.update hosts id { hosts id with vol := some { p with raft := i.run p.raft } })

/-- A simulator without clients, faults of the network and compaction. -/
def core (rand : Nat → Nat) : Harness (Nat → Host S.app) Message where
  startNode _ id hosts :=
    match Peer.start (S.cfg id) (hosts id).disk rand with
    | some p => .ok (Function.update hosts id { hosts id with vol := some p })
    | none => .failed hosts !(Raft.newRaft (S.cfg id) (hosts id).disk rand).failed
  startWorkload hosts := (hosts,[])
  tick _ id hosts := input S delay id .tick hosts
  fire _ m hosts := input S delay m.dest (.step m) hosts
  drain _ id hosts := drained S delay id hosts
  crash id hosts := Function.update hosts id { hosts id with vol := none }
  check _ hosts := hosts

end core
end Parallax.Loop
