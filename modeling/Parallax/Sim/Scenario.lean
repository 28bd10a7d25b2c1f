import Parallax.Sim.Sound

/-! sim/scenario.go: programs of faults that are scheduled beside the rest and drive a simulator through partitions and
crashes. Whatever happens in a scenario, a quorum of the nodes is up and connected at any time. -/
namespace Parallax.Simulation
open Kv Sim Cluster Consensus
open Loop (VirtualTime)

def millisecond : VirtualTime := 1000000

namespace Simulator
variable (s : Simulator)

def scheduleFault (after : VirtualTime) (f : Fault) : Simulator := s.op (.scheduleFault after f)

def drawDur (lo hi : VirtualTime) : VirtualTime × Simulator :=
  if hi ≤ lo then (lo,s)
  else
    let (d,rng) := s.rest.rng.uniform lo hi
    (d,{ s with rest := { s.rest with rng } })

/-- `scheduleFault` after what `drawDur` returns. -/
def within (lo hi : VirtualTime) (f : Fault) : Simulator :=
  let (d,s) := s.drawDur lo hi
  scheduleFault s d f

/-- A fault after a time between `lo` and `hi` milliseconds. -/
def later (lo hi : Nat) (f : Fault) : Simulator := within s (lo * millisecond) (hi * millisecond) f

def liveLeader : Nat :=
  (s.peers.find? fun id => (s.rest.nodes id).up?.any fun r => r.state = .leader).getD 0

def aLiveFollower : Nat :=
  let lead := liveLeader s
  (s.peers.find? fun id => (s.rest.nodes id).up?.isSome && id ≠ lead).getD 0

def liveNodes : List Nat := s.peers.filter fun id => (s.rest.nodes id).up?.isSome

def quorum : Nat := s.peers.length / 2 + 1

/-- `Partition` into these nodes and the rest. -/
def isolate (iso : List Nat) : Simulator := s.op (.partition [iso,s.peers.filter (· ∉ iso)])

/-- Without a victim there is another try soon. Else it is struck, and then `next` follows. -/
def cycle (victim : Nat) (strike : Simulator → Nat → Simulator) (retry : Fault) (lo hi : Nat) (next : Fault) : Simulator :=
  if victim = 0 then later s 100 300 retry else later (strike s victim) lo hi next

def partitionLeader : Simulator := cycle s (liveLeader s) (fun s id => isolate s [id]) .partitionLeader 400 900 .healLeader

def healLeader : Simulator := later (s.op .heal) 300 700 .partitionLeader

def partitionRandomHalf : Simulator :=
  if (liveNodes s).length < 2 then later s 100 300 .partitionRandomHalf
  else
    let maxIso := max (quorum s - 1) 1
    let (k,rng) := s.rest.rng.intn maxIso
    let (perm,rng) := rng.perm s.peers.length
    let iso := (perm.take (1 + k)).map fun idx => s.peers.getD idx 0
    later (isolate { s with rest := { s.rest with rng } } iso.mergeSort) 400 900 .healRandomHalf

def healRandomHalf : Simulator := later (s.op .heal) 300 700 .partitionRandomHalf

def crashLeader : Simulator :=
  cycle s (liveLeader s) (fun s id => s.op (.crash id)) .crashLeader 300 700 (.restartLeader (liveLeader s))

def restartLeader (target : Nat) : Simulator := later (s.op (.restart target)) 300 700 .crashLeader

def chaosPartition : Simulator := cycle s (liveLeader s) (fun s id => isolate s [id]) .chaosPartition 300 700 .chaosHeal

def chaosHeal : Simulator := later (s.op .heal) 300 600 .chaosCrash

def chaosCrash : Simulator :=
  cycle s (liveLeader s) (fun s id => s.op (.crash id)) .chaosCrash 300 700 (.chaosRestart (liveLeader s))

def chaosRestart (target : Nat) : Simulator := later (s.op (.restart target)) 300 600 .chaosPartition

def isolateFollower : Simulator :=
  cycle s (aLiveFollower s) (fun s id => isolate s [id]) .isolateFollower 1500 2500 .healFollower

def healFollower : Simulator := later (s.op .heal) 500 1000 .isolateFollower

def fault : Fault → Simulator
  | .other _ => s
  | .partitionLeader => partitionLeader s
  | .healLeader => healLeader s
  | .partitionRandomHalf => partitionRandomHalf s
  | .healRandomHalf => healRandomHalf s
  | .crashLeader => crashLeader s
  | .restartLeader target => restartLeader s target
  | .chaosPartition => chaosPartition s
  | .chaosHeal => chaosHeal s
  | .chaosCrash => chaosCrash s
  | .chaosRestart target => chaosRestart s target
  | .isolateFollower => isolateFollower s
  | .healFollower => healFollower s

def armPartitionLeader : Simulator := later s 300 700 .partitionLeader

def armPartitionRandomHalf : Simulator := later s 300 700 .partitionRandomHalf

def armCrashLeaderLoop : Simulator := later s 300 700 .crashLeader

def armMixedChaos : Simulator := later s 300 700 .chaosPartition

def armSnapshotUnderPartition : Simulator := later s 300 700 .isolateFollower

/-- `Step`, where faults are run. -/
def nemesisStep : Simulator :=
  match Loop.pop s.queue with
  | none => s
  | some (e,queue) =>
    let s := { s with now := e.time, queue }
    let s :=
      match fault? e.action with
      | some f => fault s f
      | none => s.fire harness e.action
    { s with rest := harness.check s.sight s.rest }

end Simulator

structure Scenario where
  name : String
  config : Config → Config := id
  arm : Option (Simulator → Simulator) := none

def scenarios : List Scenario :=
  [{ name := "partition-leader", arm := some Simulator.armPartitionLeader },
   { name := "partition-random-half", arm := some Simulator.armPartitionRandomHalf },
   { name := "crash-leader-loop", arm := some Simulator.armCrashLeaderLoop },
   { name := "30pct-loss", config := fun c => { c with
       net := { c.net with dropRate := .round (mkRat 30 100), dupRate := .round (mkRat 2 100) } } },
   { name := "dup+delay", config := fun c => { c with
       net := { dropRate := .round (mkRat 2 100), dupRate := .round (mkRat 30 100), delayMin := millisecond, delayMax := 30 * millisecond } } },
   { name := "mixed-chaos", config := fun c => { c with
       net := { dropRate := .round (mkRat 10 100), dupRate := .round (mkRat 10 100), delayMin := millisecond, delayMax := 20 * millisecond } }
     arm := some Simulator.armMixedChaos },
   { name := "snapshot-under-partition", config := fun c => { c with snapshotEntries := 16 }
     arm := some Simulator.armSnapshotUnderPartition }]

def scenarioNames : List String :=
  ["partition-leader","partition-random-half","crash-leader-loop","30pct-loss","dup+delay","mixed-chaos",
   "snapshot-under-partition"]

/-- `ScenarioBaseConfig`. -/
def scenarioBaseConfig : Config :=
  { nodes := 3, electionTicks := 10, heartbeatTicks := 1, tickEvery := 10 * millisecond
    net := { delayMin := millisecond, delayMax := 5 * millisecond, dropRate := .round (mkRat 2 100), dupRate := .round (mkRat 2 100) }
    workload := { clients := 6, keys := 4, thinkMin := millisecond, thinkMax := 15 * millisecond, putRatio := .round (mkRat 5 10)
                  deleteRatio := .round (mkRat 1 10), casRatio := .round (mkRat 2 10) } }

inductive ScenarioErr where
  | unknown (name : String)
  | new (err : NewErr)

/-- `NewScenario`. -/
def newScenario (name : String) (rng : Rand) (seeds : Nat → Rand) (orders : Nat → Iteration) :
    Except ScenarioErr Simulator :=
  match scenarios.find? (·.name = name) with
  | none => .error (.unknown name)
  | some sc =>
    match Simulator.new (sc.config scenarioBaseConfig) rng seeds orders with
    | .error err => .error (.new err)
    | .ok s =>
      match sc.arm with
      | none => .ok s
      | some arm => .ok (arm s)

section postures
variable {S : Setup} {H : Hist} {k : Nat} {fits calm : Prop} {s s' : Simulator} {c : State (serving S).app} {f : Fault}

private theorem foldl_update_mem {a v : Nat} (g : List Nat) (ha : a ∈ g) (p : Nat → Nat) :
    g.foldl (fun p id => Function.update p id v) p a = v := by
  induction g using List.reverseRecOn with
  | nil => cases ha
  | append_singleton g b ih =>
    rw [List.foldl_append,List.foldl_cons,List.foldl_nil]
    by_cases hab : a = b
    · rw [hab,Function.update_self]
    · rw [Function.update_of_ne hab]
      exact ih ((List.mem_append.mp ha).resolve_right (by simpa using hab))

theorem Network.connected_last (n : Network) (groups : List (List Nat)) {g : List Nat} {a b : Nat} (ha : a ∈ g) (hb : b ∈ g) :
    (n.setPartition (groups ++ [g])).connected a b = true := by
  unfold Network.setPartition
  rw [if_neg (by simp)]
  simp only [Network.connected,List.zipIdx_append,List.foldl_append,List.zipIdx_singleton,List.foldl_cons,List.foldl_nil]
  rw [foldl_update_mem g ha,foldl_update_mem g hb]
  simp

/-- Enough nodes are connected. -/
def Split (s : Simulator) : Prop := ∃ rest : List Nat, rest.Nodup ∧ rest ⊆ s.peers ∧ s.quorum ≤ rest.length ∧
  ∀ a ∈ rest, ∀ b ∈ rest, s.rest.net.connected a b = true

/-- All nodes run, and enough of them are connected. -/
structure Parted (s : Simulator) : Prop where
  split : Split s
  up : ∀ n ∈ s.peers, Up s n

/-- The node `t` is down, and no other. -/
structure Missing (t : Nat) (s : Simulator) : Prop where
  net : s.rest.net.partition = none
  mem : t ∈ s.peers
  crashed : (s.nodes t).crashed = true
  up : ∀ n ∈ s.peers, n ≠ t → Up s n

/-- What a fault finds when its time comes. -/
def Fault.Finds (s : Simulator) : Fault → Prop
  | .other _ => False
  | .partitionLeader | .partitionRandomHalf | .crashLeader | .chaosPartition | .chaosCrash | .isolateFollower => Whole s
  | .healLeader | .healRandomHalf | .chaosHeal | .healFollower => Parted s
  | .restartLeader t | .chaosRestart t => Missing t s

/-- A quorum of the nodes runs and is connected. -/
def Available (s : Simulator) : Prop := ∃ q : List Nat, q.Nodup ∧ q ⊆ s.peers ∧ s.quorum ≤ q.length ∧ (∀ a ∈ q, Up s a) ∧
  ∀ a ∈ q, ∀ b ∈ q, s.rest.net.connected a b = true

private theorem connected_of_none (h : s.rest.net.partition = none) (a b : Nat) : s.rest.net.connected a b = true := by
  unfold Network.connected
  rw [h]

theorem Whole.available (h : Whole s) (hnd : s.peers.Nodup) (hlen : s.peers.length = 3) : Available s :=
  ⟨s.peers,hnd,List.Subset.refl _,by rw [Simulator.quorum,hlen]; decide,h.up,fun a _ b _ => connected_of_none h.net a b⟩

theorem Parted.available (h : Parted s) : Available s := by
  obtain ⟨rest,hnd,hsub,hlen,hconn⟩ := h.split
  exact ⟨rest,hnd,hsub,hlen,fun a ha => h.up a (hsub ha),hconn⟩

theorem Missing.available {t : Nat} (h : Missing t s) (hnd : s.peers.Nodup) (hlen : s.peers.length = 3) : Available s := by
  refine ⟨s.peers.erase t,hnd.erase t,List.erase_subset,?_,fun a ha => ?_,fun a _ b _ => connected_of_none h.net a b⟩
  · rw [List.length_erase_of_mem h.mem,Simulator.quorum,hlen]
  · exact h.up a (List.mem_of_mem_erase ha) fun heq => hnd.not_mem_erase (heq ▸ ha)

theorem Fault.Finds.available (h : f.Finds s) (hnd : s.peers.Nodup) (hlen : s.peers.length = 3) : Available s := by
  cases f with
  | other => exact h.elim
  | partitionLeader | partitionRandomHalf | crashLeader | chaosPartition | chaosCrash | isolateFollower =>
    exact Whole.available h hnd hlen
  | healLeader | healRandomHalf | chaosHeal | healFollower => exact Parted.available h
  | restartLeader t | chaosRestart t => exact Missing.available h hnd hlen

/-- The same nodes run, and the network is split as it was. -/
structure Alike (s s' : Simulator) : Prop where
  peers : s'.peers = s.peers
  net : s'.rest.net.partition = s.rest.net.partition
  crashed : ∀ n, (s'.nodes n).crashed = (s.nodes n).crashed
  alive : ∀ n, (s.rest.nodes n).up?.isSome = true → (s'.rest.nodes n).up?.isSome = true

theorem Steady.alike (h : Steady s s') : Alike s s' := ⟨h.peers,h.partition,h.crashed,h.alive⟩

theorem Alike.up (h : Alike s s') {n : Nat} (hn : Up s n) : Up s' n := ⟨(h.crashed n).trans hn.1,h.alive n hn.2⟩

theorem Whole.alike (h : Whole s) (ha : Alike s s') : Whole s' :=
  ⟨ha.net.trans h.net,fun n hn => ha.up (h.up n (ha.peers ▸ hn))⟩

theorem Parted.alike (h : Parted s) (ha : Alike s s') : Parted s' := by
  obtain ⟨rest,hnd,hsub,hlen,hconn⟩ := h.split
  refine ⟨⟨rest,hnd,ha.peers ▸ hsub,?_,fun a hra b hrb => ?_⟩,fun n hn => ha.up (h.up n (ha.peers ▸ hn))⟩
  · rw [Simulator.quorum,ha.peers]
    exact hlen
  have hab := hconn a hra b hrb
  unfold Network.connected at hab ⊢
  rwa [ha.net]

theorem Missing.alike {t : Nat} (h : Missing t s) (ha : Alike s s') : Missing t s' :=
  ⟨ha.net.trans h.net,ha.peers ▸ h.mem,(ha.crashed t).trans h.crashed,fun n hn hne => ha.up (h.up n (ha.peers ▸ hn) hne)⟩

theorem Fault.Finds.alike (h : f.Finds s) (ha : Alike s s') : f.Finds s' := by
  cases f with
  | other => exact h
  | partitionLeader | partitionRandomHalf | crashLeader | chaosPartition | chaosCrash | isolateFollower =>
    exact Whole.alike h ha
  | healLeader | healRandomHalf | chaosHeal | healFollower => exact Parted.alike h ha
  | restartLeader t | chaosRestart t => exact Missing.alike h ha

theorem within_eq (s : Simulator) {lo hi : VirtualTime} (h : 0 ≤ lo) (hspan : hi - lo < 9223372036854775807) (f : Fault) :
    ∃ rng d, 0 ≤ d ∧ rng.panicked = s.rest.rng.panicked ∧
      s.within lo hi f = Loop.Simulator.schedule { s with rest := { s.rest with rng } } d (.other (.fault f)) := by
  unfold Simulator.within Simulator.drawDur
  split_ifs with hle
  · exact ⟨_,_,h,rfl,rfl⟩
  · exact ⟨_,_,Int.add_nonneg h (Int.natCast_nonneg _),s.rest.rng.uniform_panicked (Int.not_le.mp hle) hspan,rfl⟩

private theorem later_eq (s : Simulator) (lo hi : Nat) (hhi : hi ≤ 2500) (f : Fault) :
    ∃ rng d, 0 ≤ d ∧ rng.panicked = s.rest.rng.panicked ∧
      s.later lo hi f = Loop.Simulator.schedule { s with rest := { s.rest with rng } } d (.other (.fault f)) := by
  have hlo : (0 : Int) ≤ lo * 1000000 := Int.mul_nonneg (Int.natCast_nonneg lo) (by decide)
  have hspan : (hi * 1000000 - lo * 1000000 : Int) < 9223372036854775807 := by omega
  exact within_eq s hlo hspan f

private theorem alike_later (s : Simulator) (lo hi : Nat) (hhi : hi ≤ 2500) (f : Fault) : Alike s (s.later lo hi f) := by
  obtain ⟨_,_,_,_,heq⟩ := later_eq s lo hi hhi f
  rw [heq]
  exact ⟨rfl,rfl,fun _ => rfl,fun _ hn => hn⟩

private theorem faults_later (s : Simulator) (lo hi : Nat) (hhi : hi ≤ 2500) (f : Fault) :
    faults (s.later lo hi f).queue = f :: faults s.queue := by
  obtain ⟨_,_,_,_,heq⟩ := later_eq s lo hi hhi f
  rw [heq]
  rfl

theorem Portrays.draw (h : Portrays S fits calm k s c H) {rng : Rng} (hrng : rng.panicked = s.rest.rng.panicked) :
    Portrays S fits calm k { s with rest := { s.rest with rng } } c H := by
  refine ⟨h.world.redraw rfl fun _ => hrng,h.peers,h.flushed,h.queue,h.down,fun hfits => (h.spans hfits).congr rfl rfl,
    fun hcalm => ?_⟩
  obtain ⟨hpaced,⟨B,hB⟩,hturned,hdue,htick⟩ := h.booked hcalm
  exact ⟨⟨hpaced.net,hpaced.think,hpaced.tick,hpaced.election,hpaced.calls⟩,
    ⟨B,hB.toKeeping.congr rfl rfl rfl,hB.toVouched,hB.committed⟩,hturned,hdue,htick⟩

theorem Portrays.later (h : Portrays S fits calm k s c H) (lo hi : Nat) (hhi : hi ≤ 2500) (f : Fault) :
    Portrays S fits calm k (s.later lo hi f) c H := by
  obtain ⟨rng,d,hd,hrng,heq⟩ := later_eq s lo hi hhi f
  rw [heq]
  exact (h.draw hrng).schedule (fun _ => hd) fun _ _ _ hm => by cases hm

private theorem length_filter_not_mem (iso : List Nat) : ∀ {peers : List Nat}, peers.Nodup →
    peers.length ≤ (peers.filter (· ∉ iso)).length + iso.length := by
  induction iso with
  | nil => simp
  | cons a iso ih =>
    intro peers hnd
    have hsub : (peers.filter (· ∉ iso)).length ≤ (peers.filter (· ∉ a :: iso)).length + 1 := by
      have heq : peers.filter (· ∉ a :: iso) = (peers.filter (· ∉ iso)).erase a := by
        rw [(hnd.filter _).erase_eq_filter,List.filter_filter]
        refine List.filter_congr fun x _ => ?_
        by_cases hxa : x = a <;> simp [hxa]
      rw [heq]
      rw [List.length_erase]
      split <;> omega
    have := ih hnd
    rw [List.length_cons]
    omega

theorem Whole.isolate (h : Whole s) (hnd : s.peers.Nodup) (hlen : s.peers.length = 3) {iso : List Nat} (hiso : iso.length ≤ 1) :
    Parted (s.isolate iso) := by
  have hpeers : (s.isolate iso).peers = s.peers := rfl
  have hrest := length_filter_not_mem iso hnd
  refine ⟨⟨s.peers.filter (· ∉ iso),hnd.filter _,List.filter_sublist.subset,?_,fun a ha b hb => ?_⟩,fun n hn => h.up n hn⟩
  · rw [Simulator.quorum,hpeers,hlen]
    rw [hlen] at hrest
    omega
  · exact Network.connected_last s.rest.net [iso] ha hb

theorem Parted.heal (h : Parted s) : Whole (s.op .heal) := ⟨rfl,h.up⟩

theorem Whole.crash (h : Whole s) {t : Nat} (ht : t ∈ s.peers) : Missing t (s.op (.crash t)) := by
  have hup := h.up t ht
  have heq : s.op (.crash t) = ({ s with rest := s.rest.crash t }.setNode t { crashed := true }).recordControl := by
    change Loop.Simulator.crash harness s t = _
    unfold Loop.Simulator.crash
    rw [if_neg (by simp [ht,hup.1])]
    rfl
  rw [heq]
  refine ⟨h.net,ht,?_,fun n hn hne => ?_⟩
  · simp [Loop.Simulator.recordControl,Loop.Simulator.setNode]
  have hn := h.up n hn
  refine ⟨?_,?_⟩
  · simpa [Loop.Simulator.recordControl,Loop.Simulator.setNode,hne] using hn.1
  · have hworld : ((s.rest.crash t).nodes n) = s.rest.nodes n := World.setNode_ne _ hne _
    exact hworld ▸ hn.2

theorem Missing.restart {t : Nat} {s₁ : Simulator} (h : Missing t s) (hb : Built [t] s s₁) (hs : Steady s₁ s') : Whole s' := by
  refine Whole.steady ⟨?_,fun n hn => hb.up n ?_⟩ hs
  · rw [hb.net]
    exact h.net
  by_cases hnt : n = t
  · exact .inl (List.mem_singleton.mpr hnt)
  · exact .inr (h.up n (hb.peers ▸ hn) hnt)

private theorem crash_queue (s : Simulator) (id : Nat) : (s.op (.crash id)).queue = s.queue := by
  change (Loop.Simulator.crash harness s id).queue = s.queue
  unfold Loop.Simulator.crash
  split <;> rfl

private theorem liveLeader_mem (h : s.liveLeader ≠ 0) : s.liveLeader ∈ s.peers := by
  unfold Simulator.liveLeader at h ⊢
  cases hfind : s.peers.find? fun id => (s.rest.nodes id).up?.any fun r => r.state = .leader with
  | none =>
    rw [hfind] at h
    exact absurd rfl h
  | some id => exact List.mem_of_find?_eq_some hfind

/-- Faults that are drawn and run leave one fault to come, which will find what it needs. -/
structure Follows (S : Setup) (fits calm : Prop) (k : Nat) (s : Simulator) : Prop where
  portrays : ∃ H c, Portrays S fits calm k s c H
  next : ∃ f, faults s.queue = [f] ∧ f.Finds s

theorem Follows.later (h : Portrays S fits calm k s c H) (hq : faults s.queue = []) (lo hi : Nat) (hhi : hi ≤ 2500) (hf : f.Finds s) :
    Follows S fits calm k (s.later lo hi f) :=
  ⟨⟨H,c,h.later lo hi hhi f⟩,f,(faults_later s lo hi hhi f).trans (by rw [hq]),hf.alike (alike_later s lo hi hhi f)⟩

section steps
variable (hk : k + 1 < 2 ^ 64) (h : Portrays S fits calm k s c H) (hq : faults s.queue = [])
include hk h hq

private theorem follows_isolate (hlen : S.peers.length = 3) (hw : Whole s) {iso : List Nat} (hiso : iso.length ≤ 1)
    (lo hi : Nat) (hhi : hi ≤ 2500)
    (f : Fault) (hf : ∀ s, Parted s → f.Finds s) : Follows S fits calm (k + 1) ((s.isolate iso).later lo hi f) := by
  obtain ⟨_,_,h'⟩ := h.op hk (.partition [iso,s.peers.filter (· ∉ iso)]) fun _ => trivial
  exact .later h' hq lo hi hhi (hf _ (hw.isolate (h.peers ▸ S.nodup) (h.peers ▸ hlen) hiso))

private theorem follows_cut (hlen : S.peers.length = 3) (hw : Whole s) (victim : Nat) (retry : Fault)
    (hr : ∀ s, Whole s → retry.Finds s) (lo hi : Nat) (hhi : hi ≤ 2500) (f : Fault) (hf : ∀ s, Parted s → f.Finds s) :
    Follows S fits calm (k + 1) (s.cycle victim (fun s id => s.isolate [id]) retry lo hi f) := by
  unfold Simulator.cycle
  split
  · exact .later (h.mono (Nat.le_succ k)) hq 100 300 (by decide) (hr s hw)
  · exact follows_isolate hk h hq hlen hw le_rfl lo hi hhi f hf

private theorem follows_crash (hw : Whole s) (retry : Fault) (hr : ∀ s, Whole s → retry.Finds s) (lo hi : Nat)
    (hhi : hi ≤ 2500) (f : Fault)
    (hf : ∀ s', Missing s.liveLeader s' → f.Finds s') :
    Follows S fits calm (k + 1) (s.cycle s.liveLeader (fun s id => s.op (.crash id)) retry lo hi f) := by
  unfold Simulator.cycle
  split
  · exact .later (h.mono (Nat.le_succ k)) hq 100 300 (by decide) (hr s hw)
  rename_i hne
  obtain ⟨_,_,h'⟩ := h.op hk (.crash s.liveLeader) fun _ => trivial
  exact .later h' ((crash_queue s _).symm ▸ hq) lo hi hhi (hf _ (hw.crash (liveLeader_mem hne)))

private theorem follows_heal (hp : Parted s) (lo hi : Nat) (hhi : hi ≤ 2500) (f : Fault) (hf : ∀ s, Whole s → f.Finds s) :
    Follows S fits calm (k + 1) ((s.op .heal).later lo hi f) := by
  obtain ⟨_,_,h'⟩ := h.op hk .heal fun _ => trivial
  exact .later h' hq lo hi hhi (hf _ hp.heal)

private theorem follows_restart {t : Nat} (hm : Missing t s) (lo hi : Nat) (hhi : hi ≤ 2500) (f : Fault)
    (hf : ∀ s, Whole s → f.Finds s) :
    Follows S fits calm (k + 1) ((s.op (.restart t)).later lo hi f) := by
  obtain ⟨_,_,h',hback⟩ := h.restart hk t
  obtain ⟨s₁,hb,hs⟩ := hback hm.mem hm.crashed
  refine .later h' ?_ lo hi hhi (hf _ (hm.restart hb hs))
  have hfaults := hs.faults
  rw [hb.queue] at hfaults
  exact hfaults.trans hq

private theorem follows_partitionRandomHalf (hlen : S.peers.length = 3) (hw : Whole s) :
    Follows S fits calm (k + 1) s.partitionRandomHalf := by
  unfold Simulator.partitionRandomHalf
  split
  · exact .later (h.mono (Nat.le_succ k)) hq 100 300 (by decide) hw
  have hrng : ((s.rest.rng.intn (max (s.quorum - 1) 1 : Nat)).2.perm s.peers.length).2.panicked = s.rest.rng.panicked := by
    rw [Rng.perm_panicked,Rng.intn_panicked _ (by omega)]
  refine follows_isolate hk (h.draw hrng) hq hlen
    ⟨hw.net,hw.up⟩ ?_ 400 900 (by decide) .healRandomHalf fun _ hp => hp
  -- Of three nodes one is cut off.
  have hone : (s.rest.rng.intn (max (s.quorum - 1) 1 : Nat)).1 = 0 := by
    rw [Simulator.quorum,h.peers,hlen]
    exact Nat.mod_one _
  rw [List.length_mergeSort,List.length_map,List.length_take]
  change min (1 + (s.rest.rng.intn (max (s.quorum - 1) 1 : Nat)).1) _ ≤ 1
  rw [hone]
  exact min_le_left _ _

theorem follows_fault (hlen : S.peers.length = 3) {f : Fault} (hf : f.Finds s) : Follows S fits calm (k + 1) (s.fault f) := by
  cases f with
  | other => exact hf.elim
  | partitionLeader => exact follows_cut hk h hq hlen hf _ .partitionLeader (fun _ hw => hw) 400 900 (by decide) .healLeader fun _ hp => hp
  | healLeader => exact follows_heal hk h hq hf 300 700 (by decide) .partitionLeader fun _ hw => hw
  | partitionRandomHalf => exact follows_partitionRandomHalf hk h hq hlen hf
  | healRandomHalf => exact follows_heal hk h hq hf 300 700 (by decide) .partitionRandomHalf fun _ hw => hw
  | crashLeader => exact follows_crash hk h hq hf .crashLeader (fun _ hw => hw) 300 700 (by decide) (.restartLeader _) fun _ hm => hm
  | restartLeader t => exact follows_restart hk h hq hf 300 700 (by decide) .crashLeader fun _ hw => hw
  | chaosPartition => exact follows_cut hk h hq hlen hf _ .chaosPartition (fun _ hw => hw) 300 700 (by decide) .chaosHeal fun _ hp => hp
  | chaosHeal => exact follows_heal hk h hq hf 300 600 (by decide) .chaosCrash fun _ hw => hw
  | chaosCrash => exact follows_crash hk h hq hf .chaosCrash (fun _ hw => hw) 300 700 (by decide) (.chaosRestart _) fun _ hm => hm
  | chaosRestart t => exact follows_restart hk h hq hf 300 600 (by decide) .chaosPartition fun _ hw => hw
  | isolateFollower =>
    exact follows_cut hk h hq hlen hf _ .isolateFollower (fun _ hw => hw) 1500 2500 (by decide) .healFollower fun _ hp => hp
  | healFollower => exact follows_heal hk h hq hf 500 1000 (by decide) .isolateFollower fun _ hw => hw

end steps

/-- At most one fault is to come, and it will find what it needs. -/
inductive Poised (s : Simulator) : Prop
  | quiet (hq : faults s.queue = []) (h : Whole s)
  | armed (f : Fault) (hq : faults s.queue = [f]) (h : f.Finds s)

theorem Poised.available (h : Poised s) (hnd : s.peers.Nodup) (hlen : s.peers.length = 3) : Available s := by
  cases h with
  | quiet _ h => exact h.available hnd hlen
  | armed _ _ h => exact h.available hnd hlen

theorem Poised.alike (h : Poised s) (ha : Alike s s') (hq : faults s'.queue = faults s.queue) : Poised s' := by
  cases h with
  | quiet hq' h => exact .quiet (hq.trans hq') (h.alike ha)
  | armed f hq' h => exact .armed f (hq.trans hq') (h.alike ha)

private theorem alike_check (s : Simulator) : Alike s { s with rest := harness.check s.sight s.rest } := by
  obtain ⟨_,_,_,heq⟩ := World.check_eq (s.rest.turnTo s.sight)
  change Alike s { s with rest := (s.rest.turnTo s.sight).check }
  rw [heq]
  exact ⟨rfl,rfl,fun _ => rfl,fun _ hn => hn⟩

private theorem faults_pop {q r : List (Loop.Event Payload)} {e : Loop.Event Payload} (hpop : Loop.pop q = some (e,r)) :
    (faults q).Perm (faults (e :: r)) := by
  obtain ⟨_,_,rfl,rfl⟩ := Loop.pop_split hpop
  exact List.perm_middle.filterMap _

theorem Portrays.nemesisStep (h : Portrays S fits calm k s c H) (hk : k + 1 < 2 ^ 64) (hlen : S.peers.length = 3) (hp : Poised s) :
    ∃ H' c', Portrays S fits calm (k + 1) s.nemesisStep c' H' ∧ Poised s.nemesisStep := by
  unfold Simulator.nemesisStep
  cases hpop : Loop.pop s.queue with
  | none => exact ⟨H,c,h.mono (Nat.le_succ k),hp⟩
  | some x =>
    obtain ⟨e,q⟩ := x
    obtain ⟨hpopped,hsent⟩ := h.popped hpop
    have hperm := faults_pop hpop
    have ha : Alike s { s with now := e.time, queue := q } := ⟨rfl,rfl,fun _ => rfl,fun _ hn => hn⟩
    dsimp only
    cases hf : fault? e.action with
    | none =>
      have hq : faults (e :: q) = faults q := List.filterMap_cons_none hf
      rw [hq] at hperm
      have hp' : Poised { s with now := e.time, queue := q } := by
        cases hp with
        | quiet hq' h => exact .quiet (hperm.symm.trans (.of_eq hq')).eq_nil (h.alike ha)
        | armed f hq' h => exact .armed f (List.perm_singleton.mp (hperm.symm.trans (.of_eq hq'))) (h.alike ha)
      obtain ⟨H',c',hfired,hsteady⟩ := hpopped.fire hk hsent
      exact ⟨H',c',hfired.checked,(hp'.alike hsteady.alike hsteady.faults).alike (alike_check _) rfl⟩
    | some g =>
      have hq : faults (e :: q) = g :: faults q := List.filterMap_cons_some hf
      rw [hq] at hperm
      cases hp with
      | quiet hq' _ =>
        rw [hq'] at hperm
        cases List.nil_perm.mp hperm
      | armed f hq' h =>
        -- It was the only fault, and it has been waited for.
        rw [hq',List.singleton_perm] at hperm
        obtain ⟨rfl,hnone⟩ := List.cons.inj hperm
        obtain ⟨⟨H',c',hfollows⟩,f',hnext,hfinds⟩ := follows_fault hk hpopped hnone.symm hlen (h.alike ha)
        exact ⟨H',c',hfollows.checked,(Poised.armed f' hnext hfinds).alike (alike_check _) rfl⟩

theorem Portrays.nemesisSteps (h : Portrays S fits calm 0 s c H) (hlen : S.peers.length = 3) (hp : Poised s) {n : Nat}
    (hn : n < 2 ^ 64) : ∃ H' c', Portrays S fits calm n (Simulator.nemesisStep^[n] s) c' H' ∧ Poised (Simulator.nemesisStep^[n] s) := by
  induction n with
  | zero => exact ⟨H,c,h,hp⟩
  | succ n ih =>
    obtain ⟨_,_,hs,hp'⟩ := ih (Nat.lt_of_succ_lt hn)
    rw [Function.iterate_succ_apply']
    exact hs.nemesisStep hn hlen hp'

end postures

private theorem scenarios_valid : ∀ sc ∈ scenarios, (sc.config scenarioBaseConfig).validate = .ok () ∧
    (sc.config scenarioBaseConfig).nodes = 3 ∧ (sc.config scenarioBaseConfig).workload.keys ≤ 2 ^ 63 ∧
    0 ≤ (sc.config scenarioBaseConfig).net.delayMin ∧ 0 ≤ (sc.config scenarioBaseConfig).workload.thinkMin ∧
    (sc.config scenarioBaseConfig).workload.clients < 2 ^ 64 ∧
    (sc.config scenarioBaseConfig).Fits := by
  decide +kernel

theorem scenarios_arm : ∀ sc ∈ scenarios, ∀ arm ∈ sc.arm,
    ∃ f, arm = (Simulator.later · 300 700 f) ∧ ∀ s, Whole s → f.Finds s := by
  simp only [scenarios,List.forall_mem_cons,Option.mem_def,Option.some.injEq,forall_eq',reduceCtorEq,false_implies,
    implies_true,List.not_mem_nil,and_true,true_and]
  exact ⟨⟨.partitionLeader,rfl,fun _ hw => hw⟩,⟨.partitionRandomHalf,rfl,fun _ hw => hw⟩,⟨.crashLeader,rfl,fun _ hw => hw⟩,
    ⟨.chaosPartition,rfl,fun _ hw => hw⟩,⟨.isolateFollower,rfl,fun _ hw => hw⟩⟩

private theorem scenario_of_name {name : String} (h : name ∈ scenarioNames) :
    ∃ sc ∈ scenarios, scenarios.find? (·.name = name) = some sc := by
  have hmap : scenarios.map (·.name) = scenarioNames := rfl
  obtain ⟨sc,hsc,hname⟩ := List.mem_map.mp (hmap ▸ h)
  have hsome : (scenarios.find? (·.name = name)).isSome = true := List.find?_isSome.mpr ⟨sc,hsc,decide_eq_true hname⟩
  obtain ⟨sc',hfind⟩ := Option.isSome_iff_exists.mp hsome
  exact ⟨sc',List.mem_of_find?_eq_some hfind,hfind⟩

theorem newScenario_poised {name : String} (h : name ∈ scenarioNames) (rng : Rand) (seeds : Nat → Rand)
    (orders : Nat → Iteration) : ∃ s S H c, newScenario name rng seeds orders = .ok s ∧ Portrays S True True 0 s c H ∧
      S.peers.length = 3 ∧ Poised s := by
  obtain ⟨sc,hsc,hfind⟩ := scenario_of_name h
  obtain ⟨hvalid,hnodes,hkeys,hdelay,hthink,hclients,hfits⟩ := scenarios_valid sc hsc
  obtain ⟨s,H,c,hnew,hs,hwhole,hq⟩ := new_portrays hvalid hkeys rng seeds orders (fun _ : True => hfits)
    fun _ : True => ⟨hdelay,hthink,hclients⟩
  have hlen : (Config.setup _ hvalid).peers.length = 3 := by
    change ((List.range (sc.config scenarioBaseConfig).nodes.toNat).map (· + 1)).length = 3
    rw [hnodes]
    rfl
  unfold newScenario
  simp only [hfind,hnew]
  cases ha : sc.arm with
  | none => exact ⟨s,_,H,c,rfl,hs,hlen,.quiet hq hwhole⟩
  | some arm =>
    obtain ⟨f,rfl,hf⟩ := scenarios_arm sc hsc arm ha
    exact ⟨_,_,H,c,rfl,hs.later 300 700 (by decide) f,hlen,
      .armed f ((faults_later s 300 700 (by decide) f).trans (by rw [hq])) ((hf s hwhole).alike (alike_later s 300 700 (by decide) f))⟩

/-- Every scenario can be built, and whatever its faults do, a quorum of the nodes runs and is connected at any time, no
check finds a violation, and what the clients have seen is linearizable. -/
theorem scenario_available {name : String} (h : name ∈ scenarioNames) (rng : Rand) (seeds : Nat → Rand)
    (orders : Nat → Iteration) : ∃ s, newScenario name rng seeds orders = .ok s ∧ ∀ n < 2 ^ 64,
      Available (Simulator.nemesisStep^[n] s) ∧ (Simulator.nemesisStep^[n] s).err = none ∧
      ((Simulator.nemesisStep^[n] s).now < 2 ^ 63 →
        ∃ l, Lin.Orders (Simulator.nemesisStep^[n] s).rest.hist.checked l ∧ ∃ m, Linear.Steps Lin.StoreStep {} l m) := by
  obtain ⟨s,S,H,c,hnew,hs,hlen,hp⟩ := newScenario_poised h rng seeds orders
  refine ⟨s,hnew,fun n hn => ?_⟩
  obtain ⟨_,_,hrun,hpoised⟩ := hs.nemesisSteps hlen hp hn
  exact ⟨hpoised.available (hrun.peers ▸ S.nodup) (hrun.peers ▸ hlen),hrun.noErr,hrun.explained⟩

/-- The first fault of this run has cut off the leader. -/
theorem scenario_available_chaos : ∃ s, newScenario "mixed-chaos" high (fun i j => 7 * i + j) (fun _ => .ascending) = .ok s ∧
    (Simulator.nemesisStep^[170] s).rest.net.partition.isSome = true ∧ Available (Simulator.nemesisStep^[170] s) := by
  have hname : "mixed-chaos" ∈ scenarioNames := by decide
  obtain ⟨s,hnew,hrun⟩ := scenario_available hname high (fun i j => 7 * i + j) fun _ => .ascending
  have heval : (newScenario "mixed-chaos" high (fun i j => 7 * i + j) (fun _ => .ascending)).toOption.any (fun s =>
      (Simulator.nemesisStep^[170] s).rest.net.partition.isSome) = true := by
    decide +kernel
  rw [hnew] at heval
  simp only [Except.toOption,Option.any_some] at heval
  exact ⟨s,hnew,heval,(hrun 170 (by decide)).1⟩

end Parallax.Simulation
