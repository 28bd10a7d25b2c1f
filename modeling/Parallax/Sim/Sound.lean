import Parallax.Sim.Portrays

/-! Runs of the simulator. Whatever is done to a simulator that was built from a valid configuration, it stands for a
reachable state of the cluster: no check finds a violation, no node fails, and what the clients record is linearizable. -/
namespace Parallax.Simulation
open Kv Sim Cluster Consensus
open Loop (Call)
variable {S : Setup} {H : Hist} {k : Nat} {fits calm : Prop} {s : Simulator} {w : World} {c c' : State (serving S).app}

namespace Portrays

private theorem startAll (ids : List Nat) : ∀ {s : Simulator}
    {c : State (serving S).app}, Portrays S fits calm k s c H → k < 2 ^ 64 →
    ids.Nodup → (∀ id ∈ ids, id ∈ S.peers ∧ (c.host id).vol = none) →
    ∃ s' c', Loop.Simulator.startAll harness s ids = .ok s' ∧ Portrays S fits calm k s' c' H ∧
      Built ids s s' := by
  induction ids with
  | nil => exact fun h _ _ _ => ⟨_,_,rfl,h,rfl,rfl,rfl,rfl,rfl,fun _ hn => hn.resolve_left (by simp)⟩
  | cons id ids ih =>
    intro s c h hk hnd hdown
    obtain ⟨hid,hvol⟩ := hdown id List.mem_cons_self
    obtain ⟨hnot,hnd⟩ := List.nodup_cons.mp hnd
    obtain ⟨w',c₁,hstart,hhost,h₁,hbuilt,_⟩ := h.start hk hid hvol
    unfold Loop.Simulator.startAll
    rw [hstart]
    obtain ⟨s',c',hall,h',hbuilt'⟩ := ih h₁ hk hnd fun id' hid' => by
      have hne : id' ≠ id := fun heq => hnot (heq ▸ hid')
      rw [hhost id' hne]
      exact hdown id' (List.mem_cons_of_mem _ hid')
    exact ⟨s',c',hall,h',hbuilt.trans hbuilt'⟩

private theorem scheduleTicks (ids : List Nat) : ∀ {s : Simulator}, Portrays S fits calm k s c H →
    Portrays S fits calm k (ids.foldl Loop.Simulator.scheduleTick s) c H := by
  induction ids with
  | nil => exact fun h => h
  | cons id ids ih => exact fun h => ih (h.scheduleTick id)

end Portrays

private theorem scheduleTicks_rest (ids : List Nat) : ∀ s :
    Simulator, (ids.foldl Loop.Simulator.scheduleTick s).rest = s.rest := by
  induction ids with
  | nil => exact fun _ => rfl
  | cons id ids ih => exact fun s => ih (s.scheduleTick id)

private theorem steady_scheduleTicks (ids : List Nat) : ∀ {s s' : Simulator}, Steady s s' →
    Steady s (ids.foldl Loop.Simulator.scheduleTick s') := by
  induction ids with
  | nil => exact fun h => h
  | cons id ids ih => exact fun h => ih (h.scheduleTick id)

theorem Accounts.addClient {B : Books} {i : Nat} (h : Accounts S k w c H B) (hnone : ∀ id op, .call id op ∉ B.hist)
    (hlen : w.clients.length = i) (hi : i + 1 < 2 ^ 64) : Accounts S k (w.addClient i) c H B := by
  have hcl : ∀ (j : Nat) (cl : Client), (w.clients ++ [{ id := UInt64.ofNat (i + 1) }])[j]? = some cl →
      w.clients[j]? = some cl ∨ j = i ∧ cl = { id := UInt64.ofNat (i + 1) } := by
    intro j cl hj
    rcases Nat.lt_or_ge j w.clients.length with hlt | hge
    · rw [List.getElem?_append_left hlt] at hj
      exact .inl hj
    obtain rfl : j = i := by
      have := (List.getElem?_eq_some_iff.mp hj).1
      rw [List.length_append,List.length_singleton] at this
      omega
    rw [← hlen,List.getElem?_concat_length] at hj
    exact .inr ⟨rfl,hlen ▸ (Option.some.inj hj).symm⟩
  refine ⟨⟨h.explains,h.chronicles,h.clock,h.timely,fun j cl hj => ?_⟩,
    ⟨h.mannered,h.carried,h.asked,fun j cl hj hp => ?_⟩,h.committed⟩
  · rcases hcl j cl hj with hj | ⟨rfl,rfl⟩
    · exact h.clients j cl hj
    · exact ⟨UInt64.toNat_ofNat_of_lt' hi,Nat.zero_le k,fun id op hc => absurd hc (hnone id op),fun hp => by cases hp⟩
  rcases hcl j cl hj with hj | ⟨rfl,rfl⟩
  · exact h.reading j cl hj hp
  · cases hp

theorem Refines.startWorkload (h : Refines S k w c H) : Refines S k w.startWorkload c H := by
  have hclear : Refines S k { w with clients := [] } c H := h.beside (by simp) h.deliveries
  unfold World.startWorkload
  suffices hall : ∀ (is : List Nat) (w : World), Refines S k w c H → Refines S k (is.foldl World.addClient w) c H from
    hall _ _ hclear
  intro is
  induction is with
  | nil => exact fun w h => h
  | cons i is ih =>
    intro w h
    have hdraw : Refines S k { w with rng := w.drawThink.2 } c H := h.redraw rfl Aside.drawThink_panicked
    refine ih _ (Refines.schedule (hdraw.beside (fun cl hcl hp => ?_) h.deliveries) _ trivial)
    rcases List.mem_append.mp hcl with hcl | hcl
    · exact h.requests cl hcl hp
    · rw [List.mem_singleton.mp hcl] at hp
      cases hp

theorem startWorkload_eq (w : World) : ∃ rng clients calls, w.startWorkload = { w with rng, clients, calls } := by
  unfold World.startWorkload
  suffices hall : ∀ (is : List Nat) (w' : World), (∃ rng clients calls, w' = { w with rng, clients, calls }) →
      ∃ rng clients calls, is.foldl World.addClient w' = { w with rng, clients, calls } from hall _ _ ⟨_,_,_,rfl⟩
  intro is
  induction is with
  | nil => exact fun _ h => h
  | cons i is ih =>
    rintro _ ⟨_,_,_,rfl⟩
    exact ih _ ⟨_,_,_,rfl⟩

theorem World.Fits.startWorkload (h : w.Fits) : w.startWorkload.Fits := by
  obtain ⟨_,_,_,heq⟩ := startWorkload_eq w
  rw [heq]
  exact h.congr rfl rfl

theorem Whole.startWorkload (h : Whole s) : Whole (s.perform s.rest.startWorkload.flush) := by
  have halike := s.perform_alike s.rest.startWorkload.flush
  have hrest : (s.perform s.rest.startWorkload.flush).rest = { s.rest.startWorkload with calls := [] } :=
    Loop.Simulator.perform_rest ..
  obtain ⟨_,_,_,heq⟩ := startWorkload_eq s.rest
  refine ⟨?_,fun n hn => ⟨?_,?_⟩⟩
  · rw [hrest,heq]
    exact h.net
  · rw [halike.nodes]
    exact (h.up n (halike.peers ▸ hn)).1
  · rw [hrest,heq]
    exact (h.up n (halike.peers ▸ hn)).2

private theorem paced_addClient (h : Paced w) (i : Nat) : Paced (w.addClient i) := by
  refine ⟨h.net,h.think,h.tick,h.election,fun after p hmem => ?_⟩
  rcases List.mem_append.mp hmem with hmem | hmem
  · exact h.calls after p hmem
  · obtain ⟨rfl,_⟩ := Call.schedule.inj (List.mem_singleton.mp hmem)
    exact Aside.drawThink_nonneg h

theorem Accounts.startWorkload {B : Books} (h : Accounts S k w c H B) (hp : Paced w) (hnone : ∀ id op, .call id op ∉ B.hist)
    (hlen : w.cfg.workload.clients < 2 ^ 64) :
    Paced w.startWorkload ∧ w.startWorkload.now = w.now ∧ Accounts S k w.startWorkload c H B := by
  have hall : ∀ n, n < 2 ^ 64 → Paced ((List.range n).foldl World.addClient { w with clients := [] }) ∧
      ((List.range n).foldl World.addClient { w with clients := [] }).now = w.now ∧
      ((List.range n).foldl World.addClient { w with clients := [] }).clients.length = n ∧
      Accounts S k ((List.range n).foldl World.addClient { w with clients := [] }) c H B := by
    intro n
    induction n with
    | zero =>
      exact fun _ => ⟨⟨hp.net,hp.think,hp.tick,hp.election,hp.calls⟩,rfl,rfl,
        ⟨h.explains,h.chronicles,h.clock,h.timely,fun _ _ hi => by cases hi⟩,
        h.toVouched.fewer fun _ _ hi => (by cases hi),h.committed⟩
    | succ n ih =>
      intro hn
      obtain ⟨hp₁,hnow₁,hlen₁,h₁⟩ := ih (by omega)
      rw [List.range_succ,List.foldl_append,List.foldl_cons,List.foldl_nil]
      refine ⟨paced_addClient hp₁ n,hnow₁,?_,h₁.addClient hnone hlen₁ hn⟩
      change (_ ++ [_]).length = n + 1
      rw [List.length_append,hlen₁,List.length_singleton]
  obtain ⟨hp',hnow,_,hB⟩ := hall _ hlen
  exact ⟨hp',hnow,hB⟩

theorem validatePeers_ok {id : Nat} {ps : List Nat} (hpos : ∀ p ∈ ps, p ≠ 0) (hnd : ps.Nodup) : ∀ (found : Bool) (seen : List Nat),
    (∀ p ∈ ps, p ∉ seen) → Parallax.Config.validatePeers id found seen ps = .ok (found || decide (id ∈ ps)) := by
  induction ps with
  | nil => simp [Parallax.Config.validatePeers]
  | cons p ps ih =>
    intro found seen hseen
    obtain ⟨hnot,hnd⟩ := List.nodup_cons.mp hnd
    unfold Parallax.Config.validatePeers
    rw [if_neg (hpos p List.mem_cons_self),if_neg (hseen p List.mem_cons_self),
      ih (fun q hq => hpos q (List.mem_cons_of_mem _ hq)) hnd _ _ fun q hq hmem => ?_]
    · by_cases hid : id = p
      · simp [hid]
      · rw [beq_false_of_ne (Ne.symm hid)]
        simp [hid]
    rcases List.mem_cons.mp hmem with rfl | hmem
    · exact hnot hq
    · exact hseen q (List.mem_cons_of_mem _ hq) hmem

/-- The members are 1 to `cfg.nodes`. -/
def Config.peers (cfg : Config) : List Nat := (List.range cfg.nodes.toNat).map (· + 1)

theorem Config.peers_nodup (cfg : Config) : cfg.peers.Nodup :=
  List.nodup_range.map fun _ _ h => Nat.succ.inj h

def Config.node (cfg : Config) (id : Nat) : Parallax.Config :=
  { id := id
    peers := cfg.peers
    electionTicks := cfg.electionTicks.toNat
    heartbeatTicks := cfg.heartbeatTicks.toNat
    preVote := true }

theorem Config.ticks_of_validate {cfg : Config} (h : cfg.validate = .ok ()) :
    cfg.heartbeatTicks < cfg.electionTicks ∧ 0 < cfg.heartbeatTicks := by
  unfold Config.validate Loop.Config.validate at h
  split at h
  · cases h
  rename_i hloop
  split_ifs at hloop with h₁ h₂ h₃ h₄
  exact ⟨Int.not_le.mp h₂,Int.not_le.mp h₃⟩

theorem Config.node_valid {cfg : Config} (h : cfg.validate = .ok ()) {id : Nat} (hid : id ∈ cfg.peers) :
    (cfg.node id).validate = .ok () := by
  have hpos : ∀ p ∈ cfg.peers, p ≠ 0 := by
    intro p hp
    obtain ⟨j,_,rfl⟩ := List.mem_map.mp hp
    exact Nat.succ_ne_zero j
  obtain ⟨hlt,hbeat⟩ := ticks_of_validate h
  have hpeers : Parallax.Config.validatePeers id false [] cfg.peers = .ok true := by
    rw [validatePeers_ok hpos cfg.peers_nodup _ _ (by simp)]
    simp [hid]
  unfold Parallax.Config.validate Config.node
  dsimp only
  rw [if_neg (hpos id hid),if_neg (by omega),if_neg (by omega),hpeers]

/-- The cluster that a simulator is about. -/
def Config.setup (cfg : Config) (h : cfg.validate = .ok ()) : Setup where
  peers := cfg.peers
  cfg := cfg.node
  app := replicaApp
  nodup := cfg.peers_nodup
  cfg_id _ _ := rfl
  cfg_peers _ _ := .refl _
  cfg_valid _ hid := cfg.node_valid h hid

theorem refines_init {cfg : Config} (h : cfg.validate = .ok ()) (hkeys : cfg.workload.keys ≤ 2 ^ 63) (net : Network)
    (rng : Rand) (seeds : Nat → Rand) (orders : Nat → Iteration) :
    Refines (cfg.setup h) 0
      { cfg, peers := cfg.peers, net, rng := { stream := rng }, seeds, orders, checker := { peers := cfg.peers } } {}
      History.empty where
  reachable := .init
  inv := Inv.init _
  traced := ⟨fun _ _ => ⟨le_rfl,fun _ he => by cases he⟩,fun _ hm => by cases hm⟩
  peers := rfl
  cfg _ _ := rfl
  keys := hkeys
  absent _ _ := rfl
  mirrors _ _ := ⟨rfl,fun _ => rfl,fun _ hup => by cases hup⟩
  kept _ _ := ⟨rfl,fun _ hrec => by cases hrec⟩
  applied _ _ _ hrec := by cases hrec
  requests _ hcl := by cases hcl
  deliveries _ _ hm := by cases hm
  unlocked := (mannered_init _).unlocked
  reads _ _ := rfl
  noErr := rfl
  drawn _ := rfl
  checked := rfl
  led t id hid := by simp at hid
  coherent := coherent_new _

/-- No int64 that is computed from the configuration overflows: the numbers of times to draw from, and the timeout of a
retry. -/
structure Config.Fits (cfg : Config) : Prop where
  delay : cfg.net.delayMax - cfg.net.delayMin < 2 ^ 63 - 1
  think : cfg.workload.thinkMax - cfg.workload.thinkMin < 2 ^ 63 - 1
  retry : cfg.electionTicks * 4 * cfg.tickEvery < 2 ^ 63

instance (cfg : Config) : Decidable cfg.Fits :=
  decidable_of_iff (cfg.net.delayMax - cfg.net.delayMin < 2 ^ 63 - 1 ∧
      cfg.workload.thinkMax - cfg.workload.thinkMin < 2 ^ 63 - 1 ∧ cfg.electionTicks * 4 * cfg.tickEvery < 2 ^ 63)
    ⟨fun h => ⟨h.1,h.2.1,h.2.2⟩,fun h => ⟨h.delay,h.think,h.retry⟩⟩

/-- No delay is below zero, and there are as many names as clients. -/
structure Config.Calm (cfg : Config) : Prop where
  delay : 0 ≤ cfg.net.delayMin
  think : 0 ≤ cfg.workload.thinkMin
  clients : cfg.workload.clients < 2 ^ 64

/-- Books before anything has happened. -/
def Books.none : Books where
  log := []
  hist := []
  floor _ := 0
  point _ := 0
  card _ := { clientID := 0, input := { op := .get }, call := 0, ret := 0 }
  num _ := 0

private theorem accounts_init {w : World} (hhist : w.hist = {}) (hclients : w.clients = []) (hnow : w.now = 0) :
    Accounts S 0 w {} History.empty .none where
  explains := .init _ _
  chronicles := hhist ▸ Lin.chronicles_init _ _
  clock := Int.le_of_eq hnow.symm
  timely _ := ⟨.nil,fun _ he => by cases he⟩
  clients _ _ hi := by
    rw [hclients] at hi
    cases hi
  mannered := mannered_init _
  carried := ⟨fun _ _ _ he => (by cases he),fun _ hm => (by cases hm)⟩
  asked _ _ _ ha := by
    obtain ⟨_,_,hr,_⟩ := ha
    cases hr
  reading _ _ hi := by
    rw [hclients] at hi
    cases hi
  committed := ⟨0,.nil 0⟩

/-- A valid configuration is all it takes to build a simulator. -/
theorem new_portrays {cfg : Config} (h : cfg.validate = .ok ()) (hkeys : cfg.workload.keys ≤ 2 ^ 63) (rng : Rand)
    (seeds : Nat → Rand) (orders : Nat → Iteration) (hfits : fits → cfg.Fits) (hcalm : calm → cfg.Calm) :
    ∃ s H c, Simulator.new cfg rng seeds orders = .ok s ∧ Portrays (cfg.setup h) fits calm 0 s c H ∧ Whole s ∧
      faults s.queue = [] := by
  have hloop : cfg.toConfig.validate = .ok () := by
    unfold Config.validate at h
    split at h
    · cases h
    · assumption
  set w : World := { cfg, peers := cfg.peers, net := { cfg := cfg.net }, rng := { stream := rng }, seeds, orders
                     checker := { peers := cfg.peers } } with hw
  have htick := Loop.Config.tickEvery_pos hloop
  have hinit : Portrays (cfg.setup h) fits calm 0 { cfg := cfg.toConfig, peers := cfg.peers, rest := w } {} History.empty := by
    refine ⟨refines_init h hkeys _ _ _ _,rfl,rfl,fun _ he => (by cases he),fun _ _ hc => (by cases hc),
      fun hf => ⟨(hfits hf).delay,(hfits hf).think⟩,fun hc => ?_⟩
    have hpaced : Paced w := ⟨⟨(hcalm hc).delay,fun _ hf => by cases hf⟩,(hcalm hc).think,htick,
      Int.le_of_lt (Int.lt_trans (Config.ticks_of_validate h).2 (Config.ticks_of_validate h).1),fun _ _ hm => by cases hm⟩
    exact ⟨hpaced,⟨_,accounts_init rfl rfl rfl⟩,Int.le_refl 0,fun _ he => (by cases he),Int.le_of_lt htick⟩
  obtain ⟨s,c,hstart,hs,hbuilt⟩ := hinit.startAll cfg.peers (by decide) cfg.peers_nodup fun id hid => ⟨hid,rfl⟩
  have hticks := hs.scheduleTicks cfg.peers
  have hsteady := steady_scheduleTicks cfg.peers (.refl s)
  have hwhole : Whole s := by
    refine ⟨?_,fun n hn => hbuilt.up n (.inl ?_)⟩
    · rw [hbuilt.net]
    · rwa [hbuilt.peers] at hn
  have hfaults : faults s.queue = [] := by
    rw [hbuilt.queue]
    rfl
  refine ⟨_,_,c,?_,portrays_perform hticks.world.startWorkload hticks.peers hticks.queue hticks.down
    (fun hf => (hticks.spans hf).startWorkload) fun hc => ?_,
    (hwhole.steady hsteady).startWorkload,
    (faults_perform _ hticks.world.startWorkload.deliveries).trans (hsteady.faults.trans hfaults)⟩
  · unfold Simulator.new Loop.Simulator.new
    rw [h]
    rw [hloop]
    dsimp only
    rw [show (List.range cfg.nodes.toNat).map (· + 1) = cfg.peers from rfl,← hw,hstart]
    rfl
  obtain ⟨hpaced,⟨B,hB⟩,hturned,hdue,htick⟩ := hticks.booked hc
  have hnone : ∀ id op, .call id op ∉ B.hist := by
    intro id op hcall
    have hlt := hB.chronicles.num_lt id op hcall
    rw [scheduleTicks_rest,hbuilt.hist] at hlt
    exact absurd hlt (Nat.not_lt_zero _)
  obtain ⟨hpaced',hnow,hB'⟩ := hB.startWorkload hpaced hnone (by
    rw [scheduleTicks_rest,hbuilt.cfg]
    exact (hcalm hc).clients)
  exact ⟨hpaced',⟨B,hB'⟩,Int.le_trans (Int.le_of_eq hnow) hturned,hdue,htick⟩

/-- With a configuration that fits, there is no error. -/
theorem Portrays.noErr (h : Portrays S True calm k s c H) : s.err = none := by
  unfold Simulator.err
  rw [h.world.drawn (h.spans trivial)]
  exact h.world.noErr

/-- There is an order of what was recorded that the store explains. -/
theorem Portrays.explained (h : Portrays S fits True k s c H) (hnow : s.now < 2 ^ 63) :
    ∃ l, Lin.Orders s.rest.hist.checked l ∧ ∃ m, Linear.Steps Lin.StoreStep {} l m := by
  obtain ⟨_,⟨B,hB⟩,hturned,_⟩ := h.booked trivial
  exact hB.chronicles.checkable hB.explains.wf (hB.timely (Int.lt_of_le_of_lt hturned hnow)) hB.explains.linearizable

section runs
variable {cfg : Config} (h : cfg.validate = .ok ()) (hkeys : cfg.workload.keys ≤ 2 ^ 63) (rng : Rand) (seeds : Nat → Rand)
  (orders : Nat → Iteration)
include h hkeys

private theorem run_portrays (hfits : fits → cfg.Fits) (hcalm : calm → cfg.Calm) :
    ∃ s, Simulator.new cfg rng seeds orders = .ok s ∧ ∀ ops : List Op,
    ops.length < 2 ^ 64 → (calm → ∀ o ∈ ops, o.Gentle) →
    ∃ H c, Portrays (cfg.setup h) fits calm ops.length (Simulator.run s ops) c H := by
  obtain ⟨s,H,c,hnew,hs,_⟩ := new_portrays h hkeys rng seeds orders hfits hcalm
  refine ⟨s,hnew,fun ops hlen hops => ?_⟩
  obtain ⟨H',c',hrun⟩ := hs.run ops hops (by omega)
  exact ⟨H',c',Nat.zero_add ops.length ▸ hrun⟩

/-- A simulator can be built from every valid configuration without overflows, and nothing that is done to it ends in an
error: steps, crashes, restarts, partitions and hooks in any order, for any seed and any order of iteration over maps. No
check finds a violation, no draw panics, and no node panics, or fails to persist, to decode, to compact or to start. -/
theorem simulation_never_fails (hfits : cfg.Fits) : ∃ s, Simulator.new cfg rng seeds orders = .ok s ∧
    ∀ ops : List Op, ops.length < 2 ^ 64 → (Simulator.run s ops).err = none := by
  obtain ⟨s,hnew,hrun⟩ := run_portrays h hkeys rng seeds orders (fun _ : True => hfits) False.elim
  refine ⟨s,hnew,fun ops hlen => ?_⟩
  obtain ⟨_,_,hs⟩ := hrun ops hlen False.elim
  exact hs.noErr

/-- What is done to a simulator is a run of the cluster: there is a state that can be reached by drains, crashes, restarts
and compactions alone and in which every node has the disk, the core, the store and the applied index of the simulator's
node, while every delivery that is still to come is of a message sent there, to its destination. -/
theorem simulator_refines_cluster : ∃ s, Simulator.new cfg rng seeds orders = .ok s ∧
    ∀ ops : List Op, ops.length < 2 ^ 64 → ∃ c, Reachable (serving (cfg.setup h)) c ∧
      (∀ n ∈ cfg.peers, Mirrors (c.host n) ((Simulator.run s ops).rest.nodes n)) ∧
      ∀ e ∈ (Simulator.run s ops).queue, Sent c e := by
  obtain ⟨s,hnew,hrun⟩ := run_portrays h hkeys rng seeds orders False.elim False.elim
  refine ⟨s,hnew,fun ops hlen => ?_⟩
  obtain ⟨_,c,hs⟩ := hrun ops hlen False.elim
  exact ⟨c,hs.world.reachable,hs.world.mirrors,hs.queue⟩

/-- What the clients of a simulator have seen is linearizable, and the history's check can say nothing else: after any
calls there is an order of the recorded operations, the ones without an answer among them, that keeps to real time and
that the store explains, and each group that is searched has one that the model of a key explains. It takes that no delay
is negative and that the clock has not passed what an int64 holds. -/
theorem simulation_linearizable (hcalm : cfg.Calm) : ∃ s, Simulator.new cfg rng seeds orders = .ok s ∧
    ∀ ops : List Op, ops.length < 2 ^ 64 → (∀ o ∈ ops, o.Gentle) → (Simulator.run s ops).now < 2 ^ 63 →
      (∃ l, Lin.Orders (Simulator.run s ops).rest.hist.checked l ∧ ∃ m, Linear.Steps Lin.StoreStep {} l m) ∧
      ∀ group ∈ Lin.partition (Simulator.run s ops).rest.hist.checked,
        ∃ l, Lin.Orders group l ∧ ∃ st₀ ∈ Lin.init, ∃ st, Linear.Steps Lin.KeyStep st₀ l st := by
  obtain ⟨s,hnew,hrun⟩ := run_portrays h hkeys rng seeds orders False.elim fun _ : True => hcalm
  refine ⟨s,hnew,fun ops hlen hops hnow => ?_⟩
  obtain ⟨_,_,hs⟩ := hrun ops hlen fun _ => hops
  obtain ⟨l,hl,m,hm⟩ := hs.explained hnow
  exact ⟨⟨l,hl,m,hm⟩,Lin.groups_explained hl hm⟩

end runs

/-- Three nodes and two clients. -/
def small : Config :=
  { nodes := 3, electionTicks := 10, heartbeatTicks := 1, tickEvery := 10
    net := { delayMin := 1, delayMax := 5, dropRate := .round (mkRat 1 10) }
    workload := { clients := 2, keys := 2, thinkMin := 1, thinkMax := 3, putRatio := .round (mkRat 1 2) } }

private theorem small_valid : small.validate = .ok () := by decide +kernel

theorem simulation_never_fails_small : ∃ s, Simulator.new small (fun i => i) (fun i j => i + j) (fun _ => .ascending) = .ok s ∧
    (Simulator.run s [.step,.crash 1,.partition [[2],[3]],.step,.heal,.restart 1,.step]).err = none := by
  obtain ⟨s,hnew,hrun⟩ := simulation_never_fails small_valid (by decide) (fun i => i) (fun i j => i + j) (fun _ => .ascending)
    (by decide)
  exact ⟨s,hnew,hrun _ (by decide)⟩

/-- A node that crashed and came back is a node of the cluster again. -/
theorem simulator_refines_cluster_small :
    ∃ s c, Simulator.new small (fun i => i) (fun i j => i + j) (fun _ => .ascending) = .ok s ∧
      Reachable (serving (small.setup small_valid)) c ∧
      Mirrors (c.host 1) ((Simulator.run s [.crash 1,.step,.restart 1]).rest.nodes 1) := by
  obtain ⟨s,hnew,hrun⟩ := simulator_refines_cluster small_valid (by decide) (fun i => i) (fun i j => i + j) fun _ => .ascending
  obtain ⟨c,hreach,hm,_⟩ := hrun [.crash 1,.step,.restart 1] (by decide)
  exact ⟨s,c,hnew,hreach,hm 1 (by decide)⟩

/-- Three nodes that elect a leader before their two clients call. -/
def brisk : Config :=
  { nodes := 3, electionTicks := 2, heartbeatTicks := 1, tickEvery := 10
    net := { delayMin := 1, delayMax := 1, dropRate := .round (mkRat 1 10) }
    workload := { clients := 2, keys := 2, thinkMin := 26, thinkMax := 26, putRatio := .round (mkRat 1 2) } }

/-- Both clients are answered, a node crashes, and it comes back. -/
def briskly : List Op := List.replicate 40 .step ++ [.crash 1,.step,.restart 1,.step]

/-- Draws that let messages pass. -/
def high : Rand := fun i => 4503599627370496 + i

theorem simulation_linearizable_brisk :
    ∃ s, Simulator.new brisk high (fun i j => 7 * i + j) (fun _ => .ascending) = .ok s ∧
      (Simulator.run s briskly).rest.hist.operations.length = 2 ∧
      ∃ l, Lin.Orders (Simulator.run s briskly).rest.hist.checked l ∧ ∃ m, Linear.Steps Lin.StoreStep {} l m := by
  have hvalid : brisk.validate = .ok () := by decide +kernel
  obtain ⟨s,hnew,hrun⟩ := simulation_linearizable hvalid (by decide) high (fun i j => 7 * i + j) (fun _ => .ascending)
    ⟨by decide,by decide,by decide⟩
  have heval : (Simulator.new brisk high (fun i j => 7 * i + j) (fun _ => .ascending)).toOption.any (fun s =>
      decide ((Simulator.run s briskly).now < 2 ^ 63 ∧ (Simulator.run s briskly).rest.hist.operations.length = 2)) = true := by
    decide +kernel
  rw [hnew] at heval
  simp only [Except.toOption,Option.any_some,decide_eq_true_eq] at heval
  obtain ⟨hnow,hops⟩ := heval
  refine ⟨s,hnew,hops,(hrun briskly (by decide) (fun o ho => ?_) hnow).1⟩
  rcases List.mem_append.mp ho with ho | ho
  · rw [List.eq_of_mem_replicate ho]
    trivial
  · have ho : o = .crash 1 ∨ o = .step ∨ o = .restart 1 ∨ o = .step := by simpa using ho
    rcases ho with rfl | rfl | rfl | rfl <;> trivial

end Parallax.Simulation
