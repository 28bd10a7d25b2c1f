import Parallax.Cluster.Retries
import Parallax.Sim.Mirror

/-! Worlds of the simulator against states of the cluster. A world stands for a reachable state of the cluster whose hosts
are mirrored by its nodes. What happens in a world happens in the cluster, and nothing of it is an error. -/
namespace Parallax.Simulation
open Kv Sim Cluster Consensus Consensus.History
open Loop (Call)
variable {S : Setup} {H H' : Hist} {n k : Nat} {w w' : World} {c c' : State (serving S).app} {i : Input}

/-- Short enough, and all that it carries can be decoded. -/
def Legible (k : Nat) (l : List Entry) : Prop := l.length ≤ k ∧ ∀ e ∈ l, Decodes e

theorem Legible.of_isPrefix {l l' : List Entry} (hp : l' <+: l) (h : Legible k l) : Legible k l' :=
  ⟨hp.length_le.trans h.1,fun e he => h.2 e (hp.subset he)⟩

theorem Legible.mono {k' : Nat} {l : List Entry} (h : Legible k l) (hk : k ≤ k') : Legible k' l := ⟨h.1.trans hk,h.2⟩

/-- If the input proposes anything, it is one command as clients have them. -/
def Requests (i : Input) : Prop := ∀ m, i.message? = some m → m.type = .propose →
  m.entries = [] ∨ ∃ cmd : Command, cmd.Encodable ∧ m.entries = [{ data := encodeCommand cmd }]

theorem Legible.add {l es : List Entry} (h : Legible k l) (hi : Requests i) {flush : Bool}
    (ha : Adds (.input n i flush) es) (t : Nat) : Legible (k + 1) (l ++ Raft.stampEntries t l.length es) := by
  suffices hes : es.length ≤ 1 ∧ ∀ e ∈ es, Decodes e by
    refine ⟨?_,fun e he => ?_⟩
    · rw [List.length_append,stampEntries_length]
      exact Nat.add_le_add h.1 hes.1
    rcases List.mem_append.mp he with he | he
    · exact h.2 e he
    obtain ⟨e₀,he₀,hty,hdata⟩ := stampEntries_payload he
    have hdec := hes.2 e₀ he₀
    unfold Decodes at hdec ⊢
    rwa [hty,hdata]
  cases ha with
  | noop =>
    refine ⟨le_rfl,fun e he hcarry => ?_⟩
    rw [List.mem_singleton.mp he] at hcarry
    exact absurd hcarry.1 (by simp)
  | proposed he hm hty =>
    obtain ⟨rfl,rfl⟩ := Prod.mk.inj (Option.some.inj he)
    rcases hi _ hm hty with hnil | ⟨cmd,hcmd,hone⟩
    · rw [hnil]
      exact ⟨Nat.zero_le 1,by simp⟩
    rw [hone]
    refine ⟨le_rfl,fun e he _ => ⟨cmd,?_⟩⟩
    rw [List.mem_singleton.mp he]
    exact decode_encodeCommand hcmd

/-- The world `w` stands for the state `c` of the cluster, with the history `H`; logs have `k` entries at most. -/
structure Refines (S : Setup) (k : Nat) (w : World) (c : State (serving S).app) (H : Hist) : Prop where
  reachable : Reachable (serving S) c
  inv : Inv (serving S) c H
  traced : Traced (Legible k) c H
  peers : w.peers = S.peers
  cfg : ∀ n ∈ S.peers, w.nodeConfig n = S.cfg n
  keys : w.cfg.workload.keys ≤ 2 ^ 63
  absent : ∀ n, n ∉ S.peers → (w.nodes n).node = none
  mirrors : ∀ n ∈ S.peers, Mirrors (c.host n) (w.nodes n)
  kept : ∀ n ∈ S.peers, Kept H (w.nodes n).storage
  applied : ∀ n ∈ S.peers, ∀ rec ∈ (w.nodes n).appliedLog, Applies H rec
  unlocked : Unlocked (serving S) c H
  /-- Whatever is released can be served at once. -/
  reads : ∀ n ∈ S.peers, (w.nodes n).pendingReads = []
  requests : ∀ cl ∈ w.clients, cl.pending = true → cl.cmd.Encodable
  deliveries : ∀ after p, Call.schedule after p ∈ w.calls → p.From c.net
  noErr : w.firstErr = none
  drawn : Drawn w
  checked : w.checker.peers = S.peers
  led : ∀ t id : Nat, w.checker.leaderByTerm[t]? = some id → H.Elected t id
  coherent : Coherent mem (Checker.logs w.observed) w.checker.toInvariants

theorem Applies.ext {rec : AppliedRec} (h : Applies H rec) (hx : Ext H H') : Applies H' rec := by
  obtain ⟨t,q,e,hq,h⟩ := h
  exact ⟨t,q,e,hq.ext hx,h⟩

namespace Refines

theorem beside (h : Refines S k w c H) {seeds : Nat → Rand} {orders : Nat → Iteration} {now : Loop.VirtualTime}
    {hist : Lin.History} {clients : List Client} {calls : List (Call Payload)}
    (hreq : ∀ cl ∈ clients, cl.pending = true → cl.cmd.Encodable)
    (hcalls : ∀ after p, Call.schedule after p ∈ calls → p.From c.net) :
    Refines S k { w with seeds, orders, now, hist, clients, calls } c H :=
  { h with requests := hreq, deliveries := hcalls, drawn := fun hf => h.drawn ⟨hf.net,hf.think⟩ }

theorem redraw (h : Refines S k w c H) {net : Network} {rng : Rng} (hnet : net.cfg = w.net.cfg)
    (hrng : w.Fits → rng.panicked = w.rng.panicked) : Refines S k { w with net, rng } c H :=
  { h with
    drawn := fun hf => by
      have hfits : w.Fits := hf.congr hnet.symm rfl
      exact (hrng hfits).trans (h.drawn hfits) }

theorem acted (h : Refines S k w c H) (hn : n ∈ S.peers) {k' : Nat} (hreach : Reachable (serving S) c')
    (hinv : Inv (serving S) c' H') (htr : Traced (Legible k') c' H') (hunl : Unlocked (serving S) c' H') (hx : Ext H H')
    (hhosts : ∀ j, j ≠ n → c'.host j = c.host j) (hnet : c.net ⊆ c'.net) {ms : List Message} (hms : ms ⊆ c'.net)
    (har : Around n ms w w') (hl : Leaves H' (c'.host n) (w.nodes n) (w'.nodes n)) : Refines S k' w' c' H' := by
  have hdrawn := har.drawn h.drawn
  obtain ⟨net,rng,nodes,hist,clients,calls,rfl⟩ := har.only
  have hother : ∀ j, j ≠ n → nodes j = w.nodes j := har.others
  have hgrow : ∀ j, Grows (w.nodes j).storage (nodes j).storage := by
    intro j
    by_cases hj : j = n
    · exact hj ▸ hl.grows
    · rw [hother j hj]
      exact .refl _
  exact
    { reachable := hreach
      inv := hinv
      traced := htr
      peers := h.peers
      cfg := h.cfg
      keys := h.keys
      absent := fun j hj => by
        have hne : j ≠ n := fun heq => hj (heq ▸ hn)
        exact (congrArg NodeState.node (hother j hne)).trans (h.absent j hj)
      mirrors := fun j hj => by
        by_cases hjn : j = n
        · exact hjn ▸ hl.mirrors
        rw [hhosts j hjn]
        have hns := h.mirrors j hj
        rwa [← hother j hjn] at hns
      kept := fun j hj => by
        by_cases hjn : j = n
        · exact hjn ▸ hl.kept
        · have hkept := (h.kept j hj).ext hx
          rwa [← hother j hjn] at hkept
      applied := fun j hj rec hrec => by
        by_cases hjn : j = n
        · subst hjn
          exact (hl.applied rec hrec).elim (fun hold => (h.applied j hj rec hold).ext hx) id
        · have hrec' : rec ∈ (w.nodes j).appliedLog := hother j hjn ▸ hrec
          exact (h.applied j hj rec hrec').ext hx
      unlocked := hunl
      reads := fun j hj => by
        by_cases hjn : j = n
        · exact hjn ▸ hl.reads
        · exact (congrArg NodeState.pendingReads (hother j hjn)).trans (h.reads j hj)
      requests := fun cl hcl hp => by
        obtain ⟨cl₀,hcl₀,hp₀,hcmd⟩ := har.clients cl hcl hp
        exact hcmd ▸ h.requests cl₀ hcl₀ hp₀
      deliveries := fun after p hp =>
        (har.calls after p hp).elim (fun hold => (h.deliveries after p hold).mono hnet) fun hnew => hnew.mono hms
      noErr := h.noErr
      drawn := hdrawn
      checked := h.checked
      led := fun t id hid => (h.led t id hid).ext hx
      coherent := h.coherent.grow fun j => by
        unfold Checker.logs World.observed
        by_cases hj : j ∈ w.peers
        · simp only [if_pos hj]
          exact .inr ⟨_,_,rfl,rfl,hgrow j⟩
        · simp only [if_neg hj]
          exact .inl ⟨rfl,rfl⟩ }

theorem mono (h : Refines S k w c H) {k' : Nat} (hk : k ≤ k') : Refines S k' w c H :=
  { h with traced := ⟨fun n hn => (h.traced.log n hn).mono hk,fun m hm hty => (h.traced.net m hm hty).mono hk⟩ }

/-- The cluster takes an input, and compacts the log of the node where the policy asks for it. -/
def Feeds (n : Nat) (i : Input) (c c' : State (serving S).app) : Prop :=
  c' = c.next (serving S) (.input n i true) ∨
    c' = (c.next (serving S) (.input n i true)).next (serving S) (.compact n)

/-- Node `n` takes the input, if it is up, and is drained. -/
structure Fed (n : Nat) (i : Input) (w w' : World) (H H' : Hist) (c c' : State (serving S).app) : Prop where
  feeds : Feeds n i c c'
  change : Change (serving S) H H' c (.input n i true) (c.next (serving S) (.input n i true))
  inv : Inv (serving S) (c.next (serving S) (.input n i true)) H'
  paced : Paced w → Paced w'
  now : w'.now = w.now
  cfg : w'.cfg = w.cfg
  net : ∃ hooked, w'.net = { w.net with hooked }
  alive : ∀ j, (w.nodes j).up?.isSome = true → (w'.nodes j).up?.isSome = true
  down : (c.host n).vol = none → w' = w
  tells : ∀ p, (c.host n).vol = some p → At (serving S) H' n (i.run p.raft) ∧ Tells H' n (i.run p.raft) w w'

theorem next_input {p : Peer (serving S).app} (hp : (c.host n).vol = some p) (hfail : (i.run p.raft).failed = false)
    {hst : Host (serving S).app} {rds : List Ready}
    (hdrain : ({ disk := (c.host n).disk, vol := some { p with raft := i.run p.raft } } : Host (serving S).app).drain true
      State.fuel = (hst,rds)) :
    c.next (serving S) (.input n i true) = { c.setHost n hst with
      net := rds.flatMap Ready.messages ++ c.net
      hist := rds.reverse.map (.drained n) ++ .stepped n (some i) (i.run p.raft) :: c.hist } := by
  unfold State.next
  simp only [hp]
  rw [hfail]
  simp only [Bool.false_eq_true,if_false]
  rw [hdrain]
  rfl

/-- An event without an input changes nothing of the history. -/
theorem change_local {e : Cluster.Event} (hI : Inv (serving S) c H) (he : c.Enabled (serving S) e) (hnone : e.input? = none) :
    Change (serving S) H H c e (c.next (serving S) e) ∧ Inv (serving S) (c.next (serving S) e) H := by
  obtain ⟨H',hch,hI'⟩ := hI.next he
  obtain rfl : H' = H := by
    cases hch with
    | idle hH | fell _ _ hH | started _ _ hH | compacted _ _ hH => exact hH
    | ran he' | died he' =>
      rw [hnone] at he'
      cases he'
  exact ⟨hch,hI'⟩

private theorem compact_vol {h : Host (serving S).app} (hv : h.vol.isSome = true) : h.compact.vol.isSome = true := by
  unfold Host.compact
  split
  · exact hv
  dsimp only
  split
  · exact hv
  split
  · exact hv
  split
  · rfl
  · exact hv

theorem input (h : Refines S k w c H) (hn : n ∈ S.peers) (hi : c.Admits n i) (hreq : Requests i) (hk : k + 1 < 2 ^ 64) :
    ∃ H' c', Fed n i w (w.input n i) H H' c c' ∧ Refines S (k + 1) (w.input n i) c' H' := by
  have hm := h.mirrors n hn
  cases hup : (w.nodes n).up? with
  | none =>
    have hvol := hm.down hup
    have hsame : c.next (serving S) (.input n i true) = c := by simp only [State.next,hvol]
    have hstay : w.input n i = w := by
      unfold World.input
      rw [hup]
    rw [hstay]
    refine ⟨H,c,⟨.inl hsame.symm,.idle rfl hsame,hsame.symm ▸ h.inv,fun hw => hw,rfl,rfl,⟨_,rfl⟩,fun _ hj => hj,
      fun _ => rfl,fun p hp => ?_⟩,h.mono (Nat.le_succ k)⟩
    rw [hvol] at hp
    cases hp
  | some r =>
    obtain ⟨p,hp,hruns⟩ := hm.up r hup
    have hcr := (hm.peer hp).2
    obtain rfl : p.raft = r := by
      rw [NodeState.up?_of_not_crashed hcr,hruns.node] at hup
      exact Option.some.inj hup
    obtain ⟨H',hf,ha,⟨_,_⟩,hch,hinv⟩ := h.inv.inputAt hn hi true hp
    obtain ⟨_,_,_,_,heff,_⟩ := h.inv.input hn hp hi
    have hun := ((h.inv.hosts n hn).peer p hp).undrained hf ha heff
    have htr : Traced (Legible (k + 1)) (c.next (serving S) (.input n i true)) H' :=
      h.traced.next h.inv hch (fun _ _ hp hl => (hl.of_isPrefix hp).mono (Nat.le_succ k))
        (fun _ _ hp hl => hl.of_isPrefix hp) fun t _ _ hadd hl => hl.add hreq hadd t
    have hunl := h.unlocked.next h.inv hch hinv
    set w₁ := w.setNode n { w.nodes n with node := some (i.run p.raft) } with hw₁
    have hns₁ : w₁.nodes n = { w.nodes n with node := some (i.run p.raft) } := w.setNode_self ..
    have hlegible := htr.log n hn
    obtain ⟨hst,h',rds,hdrain,hh',har,htells,hl⟩ := drain_spec (w := w₁) hun ⟨Nat.lt_of_le_of_lt hlegible.1 hk,hlegible.2⟩
      (by rw [hns₁]; exact hm.disk)
      (by
        rw [hns₁]
        exact ⟨rfl,heff.kept.storage.trans hruns.storage,hruns.applied,hruns.machine,hruns.buf,hruns.ready⟩)
      (by rw [hns₁]; exact hcr) (by rw [hns₁]; exact (h.kept n hn).ext hf.ext) (by rw [hns₁]; exact h.reads n hn)
      fun rs hrs => h.unlocked.released_le h.inv hn hp hi ha hf.ext hrs
    have hinput : w.input n i = w₁.drain n := by
      unfold World.input
      rw [hup]
      dsimp only
      rw [← hw₁,ha.ok.failed]
      simp only [Bool.false_eq_true,if_false]
    have hnext := next_input hp ha.ok.failed hdrain
    have hstep : Reachable (serving S) (c.next (serving S) (.input n i true)) :=
      h.reachable.step (.mk c _ ⟨hn,hi⟩)
    have hgo : ∀ {c'}, Reachable (serving S) c' → Inv (serving S) c' H' → Traced (Legible (k + 1)) c' H' →
        Unlocked (serving S) c' H' → (∀ j, j ≠ n → c'.host j = c.host j) → c'.host n = h' →
        c'.net = rds.flatMap Ready.messages ++ c.net → Refines S (k + 1) (w₁.drain n) c' H' := by
      intro c' hreach hinv htr hunl hhosts hhost hnet
      refine h.acted hn hreach hinv htr hunl hf.ext hhosts (by rw [hnet]; exact List.subset_append_right _ _)
        (by rw [hnet]; exact List.subset_append_left _ _) ((Around.setNode ..).trans har) ?_
      rw [hhost]
      refine ⟨hl.mirrors,hl.kept,?_,?_,hl.reads⟩
      · have := hl.grows
        rwa [hns₁] at this
      · have := hl.applied
        rwa [hns₁] at this
    have halive : ((w₁.drain n).nodes n).up?.isSome = true := by
      obtain ⟨_,_,hdrain',_,⟨p',hp',_⟩,_⟩ := hun.drain true { disk := (c.host n).disk, vol := some _ } rfl rfl 2
      obtain ⟨rfl,_⟩ := Prod.mk.inj (hdrain.symm.trans hdrain')
      have hvol : h'.vol.isSome = true := by
        rcases hh' with rfl | rfl
        · exact hp' ▸ rfl
        · exact compact_vol (hp' ▸ rfl)
      obtain ⟨q,hq⟩ := Option.isSome_iff_exists.mp hvol
      obtain ⟨hr,hcr'⟩ := hl.mirrors.peer hq
      rw [NodeState.up?_of_not_crashed hcr',hr.node]
      rfl
    have hfed : ∀ {c'}, Feeds n i c c' → Fed n i w (w₁.drain n) H H' c c' := by
      intro c' hfeeds
      have har' := (Around.setNode ..).trans har
      refine ⟨hfeeds,hch,hinv,har'.paced,har'.now,har'.cfg,har'.net,fun j hj => ?_,fun hvol => ?_,fun p' hp' => ?_⟩
      · by_cases hjn : j = n
        · exact hjn ▸ halive
        · rw [har'.others j hjn]
          exact hj
      · rw [hvol] at hp
        cases hp
      obtain rfl := Option.some.inj (hp.symm.trans hp')
      have hquiet : ∀ {J}, Replies J w w₁ := .quiet rfl rfl rfl
      exact ⟨ha,hquiet.trans htells.replies,htells.served⟩
    rw [hinput]
    rcases hh' with rfl | rfl
    · exact ⟨H',_,hfed (.inl rfl),hgo hstep hinv htr hunl (fun j hj => by rw [hnext]; exact Function.update_of_ne hj _ _)
        (by rw [hnext]; exact Function.update_self ..) (by rw [hnext])⟩
    obtain ⟨hch₂,hinv₂⟩ := change_local (e := .compact n) hinv hn rfl
    refine ⟨H',_,hfed (.inr rfl),hgo (hstep.step (.mk _ _ hn)) hinv₂ ⟨htr.log,htr.net⟩ (hunl.next hinv hch₂ hinv₂)
      (fun j hj => ?_) ?_ ?_⟩
    · rw [hnext]
      exact (Function.update_of_ne hj _ _).trans (Function.update_of_ne hj _ _)
    · rw [hnext]
      refine (Function.update_self ..).trans ?_
      exact congrArg Host.compact (Function.update_self ..)
    · rw [hnext]
      rfl

end Refines

theorem NodeState.node_of_up? {ns : NodeState} {r : Raft} (h : ns.up? = some r) : ns.node = some r := by
  unfold NodeState.up? at h
  split at h
  · cases h
  · exact h

/-- A drain is the input of a proposal that proposes nothing. -/
theorem drain_eq_input {r : Raft} (hup : (w.nodes n).up? = some r) (hfail : r.failed = false) :
    w.drain n = w.input n (.step { type := .propose }) := by
  have hsame : (r.step { type := .propose }).1 = r := by
    change (r.stepPropose { type := .propose }).1 = r
    unfold Raft.stepPropose
    rw [if_pos (c := List.length _ = 0) rfl]
    split_ifs <;> rfl
  have hnode := NodeState.node_of_up? hup
  unfold World.input
  rw [hup]
  simp only [Input.run,hsame,hfail,Bool.false_eq_true,if_false]
  rw [World.setNode,← hnode,Function.update_eq_self]

namespace Refines

theorem crash (h : Refines S k w c H) (hn : n ∈ S.peers) :
    Refines S k (w.crash n) (c.next (serving S) (.crash n)) H := by
  obtain ⟨hch,hinv⟩ := change_local (e := .crash n) h.inv hn rfl
  refine h.acted hn (h.reachable.step (.mk c (.crash n) hn)) hinv ⟨h.traced.log,h.traced.net⟩
    (h.unlocked.next h.inv hch hinv) (Ext.refl H) (fun j hj => Function.update_of_ne hj _ _) (fun _ hm => hm) (List.nil_subset _) (Around.setNode ..) ?_
  rw [World.crash,World.setNode_self]
  refine ⟨⟨?_,fun _ => ?_,fun r hr => ?_⟩,h.kept n hn,.refl _,fun _ hrec => (by cases hrec),h.reads n hn⟩
  · simpa [State.next,State.setHost] using (h.mirrors n hn).disk
  · simp [State.next,State.setHost]
  · simp [NodeState.up?] at hr

theorem recovers {d : Storage} (hd : DiskOK (serving S) H n d) (hlen : (H.log n).length < 2 ^ 64) {rand : Nat → Nat}
    {p : Peer (serving S).app} (hp : Peer.start (S.cfg n) d rand = some p) (ns : NodeState)
    (hst : ns.storage.storage = d) (hsm : ns.sm = {}) (happ : ns.applied = 0) :
    p.buf = [] ∧ World.recover ns = .ok { ns with sm := p.sm.machine, applied := p.applied } := by
  obtain ⟨q,hq,hqc,_,hdata⟩ := hd.snap
  have hqlen : q.length < 2 ^ 64 := by
    have : d.offset ≤ (H.log n).length := hd.repr.le
    unfold Storage.offset at this
    omega
  unfold Peer.start at hp
  dsimp only at hp
  split at hp
  · cases hp
  unfold World.recover
  rw [hst]
  by_cases hpos : d.snapshot.metadata.index > 0
  · have hlen : d.snapshot.data.length > 0 := by
      rw [hdata hpos]
      exact List.length_pos_iff.mpr (replicaApp.snapshot_ne _)
    rw [if_pos hpos,if_pos hlen] at hp ⊢
    rw [hdata hpos] at hp ⊢
    have hrestore : (serving S).app.restore ((serving S).app.snapshot (applyAll (serving S).app q)) = some _ :=
      (serving S).app.restore_snapshot _
    rw [hrestore] at hp
    obtain rfl := Option.some.inj hp
    refine ⟨rfl,?_⟩
    have hdec := decode_snapshot hqlen
    change (StateMachine.decodeSnapshot.run (replicaApp.snapshot (applyAll replicaApp q))).map _ = _
    rw [hdec]
    change Except.ok { ns with sm := StateMachine.fold q, applied := _ } = _
    rw [← applyAll_machine hqlen]
    rfl
  rw [if_neg hpos] at hp ⊢
  obtain rfl := Option.some.inj hp
  refine ⟨rfl,?_⟩
  cases ns
  subst hsm happ
  rfl

/-- A node that is down is started, and is up. -/
theorem start (h : Refines S k w c H) (hn : n ∈ S.peers) (hdown : (w.nodes n).up? = none) (hk : k < 2 ^ 64) :
    ∃ w', w.startNode n = .ok w' ∧ Refines S k w' (c.next (serving S) (.restart n (w.seeds 0))) H ∧
      w' = { w with seeds := w'.seeds, nodes := w'.nodes } ∧ (∀ j, j ≠ n → w'.nodes j = w.nodes j) ∧
      ∃ r, (w'.nodes n).up? = some r ∧ r.failed = false := by
  have hm := h.mirrors n hn
  have hlen : (H.log n).length < 2 ^ 64 := Nat.lt_of_le_of_lt (h.traced.log n hn).1 hk
  obtain ⟨p,hp,hpk,hraft⟩ := (h.inv.hosts n hn).disk.start (S := serving S) hn h.inv.good (w.seeds 0)
  have hnew : p.raft = Raft.newRaft (w.nodeConfig n) (w.nodes n).storage.storage (w.seeds 0) := by
    rw [hraft,h.cfg n hn,hm.disk]
    rfl
  have hstorage : p.raft.raftLog.storage = (w.nodes n).storage.storage := by
    rw [hnew,newRaft_raftLog,recoverLog_storage]
  set ns : NodeState := { w.nodes n with
    crashed := false, node := some p.raft, pendingReady := false, sm := {}, applied := 0, appliedLog := [] } with hns
  obtain ⟨hbuf,hrec⟩ := recovers (h.inv.hosts n hn).disk hlen hp ns hm.disk.symm rfl rfl
  have hstart : w.startNode n = .ok ({ w with seeds := fun j => w.seeds (j + 1) }.setNode n
      { ns with sm := p.sm.machine, applied := p.applied }) := by
    unfold World.startNode
    rw [h.cfg n hn,S.cfg_valid n hn]
    dsimp only
    rw [← h.cfg n hn,← hnew,hpk.core.ok.failed]
    simp only [Bool.false_eq_true,if_false]
    rw [← hns,hrec]
  have hnext : c.next (serving S) (.restart n (w.seeds 0)) =
      { c.setHost n { c.host n with vol := some p } with hist := .stepped n none p.raft :: c.hist } := by
    simp only [State.next,hm.down hdown]
    rw [show Peer.start ((serving S).cfg n) (c.host n).disk (w.seeds 0) = some p from hp]
  have hup : NodeState.up? { ns with sm := p.sm.machine, applied := p.applied } = some p.raft :=
    NodeState.up?_of_not_crashed rfl
  have hself : ∀ w₁ : World, (w₁.setNode n { ns with sm := p.sm.machine, applied := p.applied }).nodes n =
    { ns with sm := p.sm.machine, applied := p.applied } := fun w₁ => w₁.setNode_self ..
  refine ⟨_,hstart,?_,rfl,fun j hj => World.setNode_ne _ hj _,p.raft,by rw [hself]; exact hup,hpk.core.ok.failed⟩
  have hreach := h.reachable.step (.mk c (.restart n (w.seeds 0)) hn)
  obtain ⟨hch,hinv⟩ := change_local (e := .restart n (w.seeds 0)) h.inv hn rfl
  have hunl := h.unlocked.next h.inv hch hinv
  rw [hnext] at hreach hinv hunl ⊢
  have hseeds : Refines S k { w with seeds := fun j => w.seeds (j + 1) } c H := h.beside h.requests h.deliveries
  refine hseeds.acted hn hreach hinv ⟨h.traced.log,h.traced.net⟩ hunl (Ext.refl H)
    (fun j hj => Function.update_of_ne hj _ _) (fun _ hm => hm) (List.nil_subset _) (Around.setNode ..) ?_
  rw [hself]
  refine ⟨?_,h.kept n hn,.refl _,fun _ hrec => (by cases hrec),h.reads n hn⟩
  refine Runs.mirrors (p := p) ⟨rfl,hstorage,rfl,rfl,hbuf,rfl⟩ rfl ?_ ?_
  · simpa [State.setHost] using hm.disk
  · simp [State.setHost]

theorem setHint (h : Refines S k w c H) (i id : Nat) : Refines S k (w.setHint i id) c H := by
  refine h.beside (fun cl hcl hp => ?_) h.deliveries
  obtain ⟨j,hj⟩ := List.mem_iff_getElem?.mp hcl
  rw [List.getElem?_modify] at hj
  split_ifs at hj
  · obtain ⟨cl₀,hcl₀,rfl⟩ := Option.map_eq_some_iff.mp hj
    exact h.requests cl₀ (List.mem_of_getElem? hcl₀) hp
  · exact h.requests cl (List.mem_of_getElem? (by simpa using hj)) hp

theorem setClient (h : Refines S k w c H) (i : Nat) (cl : Client) (hcl : cl.pending = true → cl.cmd.Encodable) :
    Refines S k (w.setClient i cl) c H := by
  refine h.beside (fun cl' hcl' hp => ?_) h.deliveries
  rcases List.mem_or_eq_of_mem_set hcl' with hmem | rfl
  · exact h.requests cl' hmem hp
  · exact hcl hp

theorem schedule (h : Refines S k w c H) (after : Loop.VirtualTime) {p : Payload} (hp : p.From c.net) :
    Refines S k (w.schedule after p) c H := by
  refine h.beside h.requests fun after' p' hm => ?_
  rcases List.mem_append.mp hm with hm | hm
  · exact h.deliveries after' p' hm
  · obtain ⟨_,rfl⟩ := Call.schedule.inj (List.mem_singleton.mp hm)
    exact hp

theorem recordControl (h : Refines S k w c H) : Refines S k w.recordControl c H := by
  refine h.beside h.requests fun after p hm => h.deliveries after p ?_
  simpa [World.recordControl] using hm

theorem input_absent (h : Refines S k w c H) (hn : n ∉ S.peers) (i : Input) : w.input n i = w := by
  have hdown : (w.nodes n).up? = none := by
    unfold NodeState.up?
    rw [h.absent _ hn]
    split <;> rfl
  unfold World.input
  rw [hdown]

end Refines

theorem step_refused {r r' : Raft} {m : Message} (hm : m.type = .propose ∨ m.type = .readIndex)
    (h : r.step m = (r',false)) : r' = r := by
  unfold Raft.step at h
  rcases hm with hm | hm
  · rw [hm] at h
    simp only [Raft.stepPropose] at h
    split_ifs at h <;> cases h
    rfl
  rw [hm] at h
  simp only [Raft.stepReadIndex] at h
  split_ifs at h <;> cases h
  rfl

/-- Only leaders take reads. -/
theorem leader_of_read {r : Raft} {m : Message} (hm : m.type = .readIndex) (h : (r.step m).2 = true) :
    r.state = .leader := by
  by_contra hl
  rw [step_readIndex r hm,Raft.stepReadIndex,if_pos hl] at h
  cases h

/-- The client at place `i` may have got another hint. -/
def Hinted (i : Nat) (w w' : World) : Prop := w' = w ∨ ∃ x, w' = w.setHint i x

theorem Hinted.setHint {j : Nat} (h : Hinted j w w') (x : Nat) : Hinted j w (w'.setHint j x) := by
  rcases h with rfl | ⟨y,rfl⟩
  · exact .inr ⟨x,rfl⟩
  refine .inr ⟨x,?_⟩
  unfold World.setHint
  simp only [List.modify_modify_eq]
  rfl

theorem offer_cases {m : Message} (hm : m.type = .propose ∨ m.type = .readIndex) (j : Nat) (ids : List Nat) : ∀ w : World,
    (∀ id r, (w.nodes id).up? = some r → (r.step m).1.failed = false) → ∃ w₁, Hinted j w w₁ ∧ (w.offer j m ids = w₁ ∨
      ∃ id r, (w₁.nodes id).up? = some r ∧ (r.step m).2 = true ∧ w.offer j m ids = w₁.input id (.step m)) := by
  induction ids with
  | nil => exact fun w _ => ⟨w,.inl rfl,.inl rfl⟩
  | cons id ids ih =>
    intro w hnofail
    unfold World.offer
    cases hup : (w.nodes id).up? with
    | none => exact ih w hnofail
    | some r =>
      have hnode := NodeState.node_of_up? hup
      have hok := hnofail id r hup
      dsimp only
      cases hst : r.step m with
      | mk r' ok =>
        rw [hst] at hok
        dsimp only at hok ⊢
        rw [hok]
        simp only [Bool.false_eq_true,if_false]
        cases ok with
        | true =>
          simp only [if_true]
          refine ⟨w.setHint j id,.inr ⟨id,rfl⟩,.inr ⟨id,r,hup,by rw [hst],?_⟩⟩
          have hup' : ((w.setHint j id).nodes id).up? = some r := hup
          unfold World.input
          rw [hup']
          simp only [Input.run,hst,hok,Bool.false_eq_true,if_false]
          rfl
        | false =>
          obtain rfl := step_refused hm hst
          have hsame : w.setNode id { w.nodes id with node := some r' } = w := by
            rw [World.setNode,← hnode,Function.update_eq_self]
          simp only [Bool.false_eq_true,if_false]
          rw [hsame]
          split_ifs
          · obtain ⟨w₁,hw₁,h⟩ := ih (w.setHint j r'.lead) hnofail
            refine ⟨w₁,?_,h⟩
            rcases hw₁ with rfl | ⟨x,rfl⟩
            · exact .inr ⟨_,rfl⟩
            · exact Hinted.setHint (.inr ⟨_,rfl⟩) x
          · exact ih w hnofail

end Parallax.Simulation
