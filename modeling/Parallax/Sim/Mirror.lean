import Parallax.Cluster.Provenance
import Parallax.Kv.Replica
import Parallax.Sim.Answers
import Parallax.Sim.Records

/-! The simulator's nodes against the nodes of the cluster. A drain of the simulator does to a node what a drain of the
cluster does, followed by a compaction where the policy asks for one, and it never fails. -/
namespace Parallax.Simulation
open Kv Sim Cluster Consensus Consensus.History
variable {S : Setup} {H H' : Hist} {n : Nat} {w : World} {ns : NodeState}

theorem foldl_take (ns : NodeState) {xs : List Entry} (hx : Indexed xs) {c : Nat} (hc : c ≤ xs.length) (hle : ns.applied ≤ c)
    (hsm : ns.sm = StateMachine.fold (xs.take ns.applied)) :
    ((xs.take c).drop ns.applied).foldl NodeState.take ns = { ns with
      applied := c
      sm := StateMachine.fold (xs.take c)
      appliedLog := ns.appliedLog ++ ((xs.take c).drop ns.applied).map fun e => ⟨e.index,e.term,fnv64 e.data⟩ } := by
  obtain ⟨k,hk⟩ : ∃ k, ns.applied + k = c := ⟨c - ns.applied,by omega⟩
  induction k generalizing ns with
  | zero =>
    obtain rfl : ns.applied = c := hk
    rw [List.drop_eq_nil_of_le (by simp),List.foldl_nil,List.map_nil,List.append_nil,← hsm]
  | succ k ih =>
    obtain ⟨e,he⟩ : ∃ e, xs[ns.applied]? = some e := ⟨_,List.getElem?_eq_getElem (by omega)⟩
    have hcons : (xs.take c).drop ns.applied = e :: (xs.take c).drop (ns.applied + 1) := by
      rw [List.drop_eq_getElem?_toList_append,List.getElem?_take_of_lt (by omega),he]
      rfl
    have happ : (ns.take e).applied = ns.applied + 1 := hx _ e he
    have hstep : (ns.take e).sm = StateMachine.fold (xs.take (ns.take e).applied) := by
      rw [happ,List.take_add_one,he]
      unfold NodeState.take StateMachine.fold
      rw [List.foldl_append,hsm]
      rfl
    have hih := @ih (ns.take e) (by omega) hstep (by omega)
    rw [happ] at hih
    rw [hcons,List.foldl_cons,hih,List.map_cons,List.append_cons]
    rfl

theorem fold_between (ns : NodeState) {xs : List Entry} (hx : Indexed xs) {c : Nat} (hc : c ≤ xs.length)
    (hsm : ns.sm = StateMachine.fold (xs.take ns.applied)) {pre post : List Entry} {e : Entry}
    (heq : (xs.take c).drop ns.applied = pre ++ e :: post) :
    (pre.foldl NodeState.take ns).sm = StateMachine.fold ((xs.take c).take (ns.applied + pre.length)) ∧
      (xs.take c)[ns.applied + pre.length]? = some e := by
  have he : (xs.take c)[ns.applied + pre.length]? = some e := by
    rw [← List.getElem?_drop,heq]
    simp
  have hlt := (List.getElem?_eq_some_iff.mp he).1
  rw [List.length_take] at hlt
  have hpre : pre = (xs.take (ns.applied + pre.length)).drop ns.applied := by
    have htake : ((xs.take c).drop ns.applied).take pre.length = pre := by
      rw [heq]
      simp
    rw [List.take_drop,List.take_take,min_eq_left (by omega)] at htake
    exact htake.symm
  refine ⟨?_,he⟩
  rw [List.take_take,min_eq_left (by omega)]
  conv_lhs => rw [hpre]
  rw [foldl_take ns hx (by omega) (Nat.le_add_right _ _) hsm]

/-- The node runs the peer `p`. -/
structure Runs (p : Peer (serving S).app) (ns : NodeState) : Prop where
  node : ns.node = some p.raft
  storage : p.raft.raftLog.storage = ns.storage.storage
  applied : p.applied = ns.applied
  machine : p.sm.machine = ns.sm
  buf : p.buf = []
  ready : ns.pendingReady = false

/-- The log of node `n` is one that the simulator can apply. -/
structure Readable (H : Hist) (n : Nat) : Prop where
  length : (H.log n).length < 2 ^ 64
  decodes : ∀ e ∈ H.log n, Decodes e

/-- A snapshot holds the machine of the log that it stands for. -/
theorem decode_snapshot {xs : List Entry} (hlen : xs.length < 2 ^ 64) :
    StateMachine.decodeSnapshot.run (replicaApp.snapshot (applyAll replicaApp xs)) = .ok (StateMachine.fold xs) := by
  change StateMachine.decodeSnapshot.run (applyAll replicaApp xs).machine.snapshot = _
  rw [applyAll_machine hlen]
  exact Kv.run_ok (StateMachine.takes_snapshot ((StateMachine.Bounded.fold xs).fits hlen))

theorem installs {p : Peer (serving S).app} {d : Storage} (hun : Undrained (serving S) H n d p) (hread : Readable H n)
    {rd : Ready} (hrd : p.raft.ready = .ok rd) (ms : List Message) (happ : (w.nodes n).applied = p.applied)
    (hsm : (w.nodes n).sm = p.sm.machine) :
    ∃ w', rd.snapshot.elim (.ok w) (w.installSnapshot n) = .ok w' ∧ Around n ms w w' ∧
      w'.nodes n = { w.nodes n with
        applied := p.raft.raftLog.applied
        sm := StateMachine.fold ((H.log n).take p.raft.raftLog.applied) } := by
  have hlog := hun.core.ok.log
  have hle := hlog.applied_le.trans hlog.commit_le
  have hlen := hread.length
  rw [(hlog.readyOf hrd).snapshot]
  cases hs : p.raft.raftLog.unstable.snapshot with
  | none =>
    refine ⟨w,rfl,.refl n ms w,?_⟩
    have hsm' : p.sm = applyAll replicaApp ((H.log n).take p.applied) := by
      rcases hun.sm with h | ⟨snap,hsnap⟩
      · exact h
      · rw [hs] at hsnap
        cases hsnap
    have hfold : (w.nodes n).sm = StateMachine.fold ((H.log n).take (w.nodes n).applied) := by
      rw [hsm,hsm',happ]
      exact applyAll_machine (by rw [List.length_take]; omega)
    rw [← hun.applied hs,← happ,← hfold]
  | some snap =>
    obtain ⟨hlt,hap,_⟩ := hun.pending snap hs
    obtain ⟨q,hq,hqc,_,hdata⟩ := (hlog.pending snap hs).1
    have hdata := hdata (by omega)
    have hqlog : q <+: H.log n := by
      apply hlog.prefix_log hun.core.good hqc
      rw [hq,← hap]
      exact hlog.applied_le
    have hq' : q = (H.log n).take snap.metadata.index := hq ▸ List.prefix_iff_eq_take.mp hqlog
    have hdec : StateMachine.decodeSnapshot.run snap.data = .ok (StateMachine.fold q) := by
      rw [hdata]
      exact decode_snapshot (Nat.lt_of_le_of_lt hqlog.length_le hlen)
    have hpos : snap.data.length > 0 := by
      rw [hdata]
      exact List.length_pos_iff.mpr (replicaApp.snapshot_ne _)
    rw [hap,Option.elim_some,World.installSnapshot]
    rw [if_pos hpos,if_pos (by rw [happ]; exact hlt),hdec,hq']
    exact ⟨_,rfl,.setNode ..,w.setNode_self ..⟩

/-- What clients notice of a batch: they get results that the log justifies, and no read that a leader releases is still
waited for. -/
structure Tells (H : Hist) (n : Nat) (r : Raft) (w w' : World) : Prop where
  replies : Replies (Justified ((H.log n).take r.raftLog.committed) r.readStates) w w'
  served : r.state = .leader → ∀ rs ∈ r.readStates, ∀ i c, w'.clients[i]? = some c → c.pending = true →
    ¬ Meant rs.requestCtx i c

theorem round_spec {p : Peer (serving S).app} {d : Storage} (hun : Undrained (serving S) H n d p) (hread : Readable H n)
    (hruns : Runs p (w.nodes n)) (hk : Kept H (w.nodes n).storage) {rd : Ready} (hrd : p.raft.ready = .ok rd)
    (hnone : (w.nodes n).pendingReads = []) (hidx : ∀ rs ∈ p.raft.readStates, rs.index ≤ p.raft.raftLog.committed) :
    ∃ w' t, w.round n p.raft = .ok (w'.maybeCompact n) ∧ Around n rd.messages w w' ∧ Tells H n p.raft w w' ∧
      World.persist n (w.nodes n).storage rd = (t,none) ∧
      Cluster.persist p.raft.raftLog.storage rd = .ok t.storage ∧ Kept H t ∧
      w'.nodes n = { w.nodes n with
        storage := t
        node := some ({ p.raft with raftLog := { p.raft.raftLog with storage := t.storage } }.advance rd)
        sm := StateMachine.fold ((H.log n).take p.raft.raftLog.committed)
        applied := p.raft.raftLog.committed
        appliedLog := (w.nodes n).appliedLog ++ rd.committedEntries.map fun e => ⟨e.index,e.term,fnv64 e.data⟩ } := by
  have hlog := hun.core.ok.log
  have hr := hlog.readyOf hrd
  obtain ⟨t,hpersist,hcluster,hkept⟩ := tracked_persist hun hrd hruns.storage hk n
  have hrds := hr.readStates
  -- Persisted, and sent.
  set w₁ := w.setNode n (NodeState.store { w.nodes n with pendingReady := true } t) with hw₁
  have hns₁ : w₁.nodes n = { w.nodes n with
      storage := t, pendingReady := true
      node := some { p.raft with raftLog := { p.raft.raftLog with storage := t.storage } } } := by
    rw [hw₁,World.setNode_self,NodeState.store]
    simp only [hruns.node,Option.map_some]
  have hsent := Aside.sendMessages n rd.messages w₁
  set w₂ := rd.messages.foldl (World.sendMessage n) w₁ with hw₂
  have hns₂ : w₂.nodes n = w₁.nodes n := sendMessages_nodes n rd.messages w₁ ▸ rfl
  rw [hns₁] at hns₂
  -- Restored, and applied.
  obtain ⟨w₃,hw₃,har₃,hns₃⟩ := installs (w := w₂) hun hread hrd rd.messages
    (by rw [hns₂]; exact hruns.applied.symm) (by rw [hns₂]; exact hruns.machine.symm)
  rw [hns₂] at hns₃
  have hindexed : Indexed (H.log n) := hlog.repr.indexed
  have happ₃ : (w₃.nodes n).applied = p.raft.raftLog.applied := by rw [hns₃]
  have hsm₃ : (w₃.nodes n).sm = StateMachine.fold ((H.log n).take (w₃.nodes n).applied) := by rw [hns₃]
  have hle₃ : (w₃.nodes n).applied ≤ p.raft.raftLog.committed := happ₃ ▸ hlog.applied_le
  have hes : rd.committedEntries = ((H.log n).take p.raft.raftLog.committed).drop (w₃.nodes n).applied := by
    rw [hr.committedEntries,happ₃]
  obtain ⟨har₄,hrep₄,hns₄⟩ := replies_applyEntries (n := n) rd.messages rd.committedEntries
    (fun e he => hread.decodes e (List.mem_of_mem_take (List.mem_of_mem_drop (hes ▸ he)))) w₃ (by rw [hns₃]; exact hnone) (by
      rw [hes]
      exact (hindexed.of_isPrefix (List.take_prefix _ _)).from_drop _)
  set w₄ := rd.committedEntries.foldl (World.applyEntry n) w₃ with hw₄
  have hfold := foldl_take (w₃.nodes n) hindexed hlog.commit_le hle₃ hsm₃
  rw [← hes] at hfold
  rw [hfold,hns₃] at hns₄
  -- Reads, and the acknowledgement.
  have hread₅ : Aside n rd.messages w₄ (rd.readStates.foldl (World.releaseRead n) w₄) := .foldl Aside.releaseRead _ _
  obtain ⟨hrep₅,hsame₅,hserved⟩ := replies_releaseReads (n := n) rd.readStates w₄ fun rs hrs => by
    rw [hns₄]
    exact hidx rs (hrds ▸ hrs)
  set w₅ := rd.readStates.foldl (World.releaseRead n) w₄ with hw₅
  have hns₅ : w₅.nodes n = w₄.nodes n := hsame₅ ▸ rfl
  rw [hns₄] at hns₅
  obtain ⟨r,hadv,hfin⟩ := hun.finish hrd t.storage []
  have hnofail : ({ p.raft with raftLog := { p.raft.raftLog with storage := t.storage } }.advance rd).failed = false := by
    rw [Raft.failed,hlog.advance_raftLog t.storage hrd]
    have hp : ({ p.raft with raftLog := { p.raft.raftLog with storage := t.storage } }.advance rd).panicked = none :=
      hun.core.ok.panicked
    rw [hp]
    simp [hlog.panicked]
  have hlen : ((H.log n).take p.raft.raftLog.committed).length = p.raft.raftLog.committed := by
    rw [List.length_take,min_eq_left hlog.commit_le]
  refine ⟨w₅.acknowledge n rd,t,?_,?_,⟨?_,fun hl rs hrs i c hc hp => ?_⟩,hpersist,hruns.storage ▸ hcluster,hkept,?_⟩
  · unfold World.round
    rw [hrd]
    dsimp only
    rw [hpersist]
    dsimp only
    rw [← hw₁,← hw₂,hw₃]
    rfl
  · refine ((((Around.setNode ..).trans hsent.toAround).trans har₃).trans har₄).trans (hread₅.toAround.trans ?_)
    unfold World.acknowledge
    rw [hns₅]
    dsimp only
    rw [hnofail]
    exact .setNode ..
  · have hquiet : ∀ {J}, Replies J w w₁ := .quiet rfl rfl rfl
    refine (((hquiet.trans (replies_sendMessages _ w₁)).trans (replies_installSnapshot hw₃)).trans (hrep₄.mono ?_)).trans
      ((hrep₅.mono ?_).trans (replies_acknowledge _ rd))
    · rintro i c res ⟨pre,e,post,heq,hwrote⟩
      rw [hes] at heq
      obtain ⟨hfold',he⟩ := fold_between (w₃.nodes n) hindexed hlog.commit_le hsm₃ heq
      rw [hfold'] at hwrote
      exact .wrote he hwrote
    rintro i c res ⟨⟨rs,hrs,hm⟩,rfl⟩
    rw [hns₄]
    exact .got (hrds ▸ hrs) (by rw [hlen]; exact hidx rs (hrds ▸ hrs)) hm rfl
  · refine hserved ?_ rs (hrds ▸ hrs) i c ((replies_acknowledge (J := fun _ _ _ => True) _ rd).waiting hc hp) hp
    unfold World.leads
    rw [hns₄]
    simpa using hl
  unfold World.acknowledge
  rw [hns₅]
  dsimp only
  rw [hnofail]
  simp only [Bool.false_eq_true,if_false]
  rw [World.setNode_self,hruns.ready]

/-- Storage, core, machine and applied index of the node are those of the host. -/
structure Mirrors (h : Host (serving S).app) (ns : NodeState) : Prop where
  disk : h.disk = ns.storage.storage
  down : ns.up? = none → h.vol = none
  up : ∀ r, ns.up? = some r → ∃ p, h.vol = some p ∧ Runs p ns

theorem NodeState.up?_of_not_crashed (h : ns.crashed = false) : ns.up? = ns.node := by
  unfold NodeState.up?
  rw [h]
  rfl

theorem Runs.mirrors {h : Host (serving S).app} {p : Peer (serving S).app} (hr : Runs p ns) (hc : ns.crashed = false)
    (hd : h.disk = ns.storage.storage) (hv : h.vol = some p) : Mirrors h ns where
  disk := hd
  down hdown := by
    rw [NodeState.up?_of_not_crashed hc,hr.node] at hdown
    cases hdown
  up _ _ := ⟨p,hv,hr⟩

theorem Mirrors.peer {h : Host (serving S).app} {p : Peer (serving S).app} (hm : Mirrors h ns) (hv : h.vol = some p) :
    Runs p ns ∧ ns.crashed = false := by
  cases hup : ns.up? with
  | none =>
    rw [hm.down hup] at hv
    cases hv
  | some r =>
    obtain ⟨p',hv',hr⟩ := hm.up r hup
    obtain rfl := Option.some.inj (hv.symm.trans hv')
    refine ⟨hr,?_⟩
    unfold NodeState.up? at hup
    split at hup
    · cases hup
    · rename_i hc
      exact Bool.not_eq_true _ ▸ hc

theorem compacts {h : Host (serving S).app} {p : Peer (serving S).app} (hh : HostOK (serving S) H n h) (hv : h.vol = some p)
    (hm : Mirrors h (w.nodes n)) (hk : Kept H (w.nodes n).storage) : ∃ h', (h' = h ∨ h' = h.compact) ∧
      Around n [] w (w.maybeCompact n) ∧ Mirrors h' ((w.maybeCompact n).nodes n) ∧
      Kept H ((w.maybeCompact n).nodes n).storage ∧ Grows (w.nodes n).storage ((w.maybeCompact n).nodes n).storage ∧
      ((w.maybeCompact n).nodes n).appliedLog = (w.nodes n).appliedLog ∧
      ((w.maybeCompact n).nodes n).pendingReads = (w.nodes n).pendingReads := by
  have hsame : ∃ h', (h' = h ∨ h' = h.compact) ∧ Around n [] w w ∧ Mirrors h' (w.nodes n) ∧
      Kept H (w.nodes n).storage ∧ Grows (w.nodes n).storage (w.nodes n).storage ∧
      (w.nodes n).appliedLog = (w.nodes n).appliedLog ∧ (w.nodes n).pendingReads = (w.nodes n).pendingReads :=
    ⟨h,.inl rfl,.refl n [] w,hm,hk,.refl _,rfl,rfl⟩
  obtain ⟨hr,hup⟩ := hm.peer hv
  have hpk := hh.peer p hv
  have hlog := hpk.core.ok.log
  have hrep := hlog.repr.storage hpk.clean
  unfold World.maybeCompact
  dsimp only
  split
  · exact hsame
  split
  · exact hsame
  rename_i hgt
  have hoff : p.raft.raftLog.storage.offset < p.applied := by
    rw [hr.storage,hr.applied]
    unfold Storage.offset
    omega
  have hle : p.applied ≤ (H.log n).length := hpk.applied ▸ hlog.applied_le.trans hlog.commit_le
  have hterm := hrep.term_eq hoff.le hle
  rw [← hr.storage,← hr.applied,← hr.machine,hterm]
  dsimp only
  set snap : Snapshot := { metadata := { index := p.applied, term := termAt (H.log n) p.applied }
                           data := replicaApp.snapshot p.sm } with hsnap
  obtain ⟨es,hes,_⟩ := hrep.applySnapshot_own snap hoff hle rfl
  have hes' := hes
  rw [hr.storage] at hes'
  obtain ⟨t,ht,hst,hdc,hrecs⟩ := snapshot_stage hes'
  -- The host does the same to its disk and to the core's storage, which are one here.
  have hcompact : h.compact = { disk := t.storage, vol := some { p with raft := { p.raft with
      raftLog := { p.raft.raftLog with storage := t.storage } } } } := by
    unfold Host.compact
    rw [hv]
    dsimp only
    rw [if_neg (by unfold Storage.offset at hoff; omega),hterm]
    dsimp only
    have hdisk : h.disk = p.raft.raftLog.storage := hm.disk.trans hr.storage.symm
    have hown : p.raft.raftLog.storage.applySnapshot { metadata := { index := p.applied, term := termAt (H.log n) p.applied }
                                                       data := (serving S).app.snapshot p.sm } = .ok t.storage := by
      rw [hst,← hr.storage]
      exact hes
    rw [hdisk,hown]
  have hrecover := (hh.compact.1.peer _ (by rw [hcompact])).recover
  simp only at hrecover
  have hcom : (w.nodes n).storage.durableCommit = p.raft.raftLog.committed := by
    rw [hk.commit,← hr.storage]
    exact hpk.recover
  have hap : p.applied ≤ p.raft.raftLog.committed := hpk.applied ▸ hlog.applied_le
  have hdc' : t.durableCommit = p.raft.raftLog.committed := by
    rw [hdc,hcom]
    exact max_eq_left hap
  have happly : (w.nodes n).storage.applySnapshot mem { metadata := { index := p.applied, term := termAt (H.log n) p.applied }
                                                        data := p.sm.machine.snapshot } = (t,none) := ht
  rw [happly]
  have hgrows : Grows (w.nodes n).storage t := by
    have := Grows.applySnapshot (S := mem) (t := (w.nodes n).storage) snap
    rwa [ht] at this
  have hset : ((w.setNode n ((w.nodes n).store t)).recordControl).nodes n = (w.nodes n).store t := w.setNode_self n _
  rw [hset]
  refine ⟨h.compact,.inr rfl,(Around.setNode ..).trans (Aside.recordControl ..).toAround,?_,⟨?_,?_⟩,hgrows,rfl,rfl⟩
  · rw [hcompact]
    refine Runs.mirrors (p := { p with raft := { p.raft with raftLog := { p.raft.raftLog with storage := t.storage } } })
      ⟨?_,rfl,hr.applied,hr.machine,hr.buf,hr.ready⟩ hup rfl rfl
    unfold NodeState.store
    rw [hr.node]
    rfl
  · change t.durableCommit = max t.storage.hardState.commit t.storage.offset
    rw [hdc',hrecover]
  intro rec hrec
  rcases hrecs rec hrec with hold | ⟨hgt',hidx,_⟩
  · exact hk.records rec hold
  · have hidx : rec.index ≤ p.applied := hidx
    omega

/-- A record of an entry that is committed. -/
def Applies (H : Hist) (rec : AppliedRec) : Prop :=
  ∃ t q e, H.CommittedBy t q ∧ 0 < e.index ∧ q[e.index - 1]? = some e ∧ rec = ⟨e.index,e.term,fnv64 e.data⟩

/-- How the node is left that takes part in an event, with the host `h`. -/
structure Leaves (H : Hist) (h : Host (serving S).app) (ns ns' : NodeState) : Prop where
  mirrors : Mirrors h ns'
  kept : Kept H ns'.storage
  grows : Grows ns.storage ns'.storage
  applied : ∀ rec ∈ ns'.appliedLog, rec ∈ ns.appliedLog ∨ Applies H rec
  reads : ns'.pendingReads = []

theorem not_ready {d : Storage} {p : Peer S.app} (h : PeerOK S H n d p)
    (ha : p.raft.raftLog.committed ≤ p.raft.raftLog.applied) : p.raft.hasReady = false := by
  have hnext : p.raft.raftLog.hasNextCommittedEnts = false := by
    simp only [RaftLog.hasNextCommittedEnts,decide_eq_false_iff_not]
    omega
  unfold Raft.hasReady
  rw [h.msgs,h.reads,h.clean.1,h.clean.2,hnext,h.prev]
  simp

theorem drain_eq {p : Peer (serving S).app} {d st : Storage} (hun : Undrained (serving S) H n d p)
    (hready : p.raft.hasReady = true) {rd : Ready} (hrd : p.raft.ready = .ok rd)
    (hst : Cluster.persist p.raft.raftLog.storage rd = .ok st) :
    ({ disk := d, vol := some p } : Host (serving S).app).drain true State.fuel =
      ({ disk := st
         vol := some { raft := { p.raft with raftLog := { p.raft.raftLog with storage := st } }.advance rd
                       applied := p.raft.raftLog.committed
                       sm := applyAll (serving S).app ((H.log n).take p.raft.raftLog.committed) } },[rd]) := by
  obtain ⟨r,hr,hfin⟩ := hun.finish hrd st []
  have hround : ({ disk := d, vol := some p } : Host (serving S).app).round p true =
      ({ disk := st
         vol := some { raft := r, applied := p.raft.raftLog.committed
                       sm := applyAll (serving S).app ((H.log n).take p.raft.raftLog.committed) } },some rd) := by
    unfold Host.round
    rw [hrd]
    simp only [hst,Bool.or_true,if_true]
    rw [hfin]
  unfold State.fuel Host.drain
  dsimp only
  rw [if_pos hready,hround]
  unfold Host.drain
  dsimp only
  rw [if_neg (by rw [hr,hun.advance_hasReady hrd]; simp),hr]
  rfl

/-- The drain of a node that took an input. -/
theorem drain_spec {p : Peer (serving S).app} {d : Storage} (hun : Undrained (serving S) H n d p) (hread : Readable H n)
    (hd : d = (w.nodes n).storage.storage) (hruns : Runs p (w.nodes n)) (hup : (w.nodes n).crashed = false)
    (hk : Kept H (w.nodes n).storage) (hnone : (w.nodes n).pendingReads = [])
    (hidx : ∀ rs ∈ p.raft.readStates, rs.index ≤ p.raft.raftLog.committed) : ∃ h h' rds,
      ({ disk := d, vol := some p } : Host (serving S).app).drain true State.fuel = (h,rds) ∧
      (h' = h ∨ h' = h.compact) ∧ Around n (rds.flatMap Ready.messages) w (w.drain n) ∧ Tells H n p.raft w (w.drain n) ∧
      Leaves H h' (w.nodes n) ((w.drain n).nodes n) := by
  have hnode : (w.nodes n).up? = some p.raft := by rw [NodeState.up?_of_not_crashed hup,hruns.node]
  unfold World.drain
  by_cases hready : p.raft.hasReady = true
  swap
  · have hsame : w.drainLoop n State.fuel = w := by
      unfold World.drainLoop
      rw [hnode]
      dsimp only
      rw [if_pos (.inr (by simpa using hready))]
    have hdrain : ({ disk := d, vol := some p } : Host (serving S).app).drain true State.fuel =
        ({ disk := d, vol := some p },[]) := by
      unfold State.fuel Host.drain
      dsimp only
      rw [if_neg hready]
    rw [hsame]
    have hreads : p.raft.readStates = [] := by
      by_contra hne
      have hpos := List.length_pos_iff.mpr hne
      simp [Raft.hasReady,hpos] at hready
    refine ⟨_,_,_,hdrain,.inl rfl,.refl ..,⟨.refl w,fun _ rs hrs => ?_⟩,
      hruns.mirrors hup hd rfl,hk,.refl _,fun rec hrec => .inl hrec,hnone⟩
    rw [hreads] at hrs
    cases hrs
  obtain ⟨rd,hrd,_⟩ := hun.core.ok.log.exists_ready
  obtain ⟨w₁,t,hround,har,htells,hpersist,hcluster,hkept,hns⟩ := round_spec hun hread hruns hk hrd hnone hidx
  have hdrain := drain_eq hun hready hrd hcluster
  set p₁ : Peer (serving S).app := {
    raft := { p.raft with raftLog := { p.raft.raftLog with storage := t.storage } }.advance rd
    applied := p.raft.raftLog.committed
    sm := applyAll (serving S).app ((H.log n).take p.raft.raftLog.committed) } with hp₁
  obtain ⟨h₁,rds,hdrain',hok,_⟩ := hun.drain true { disk := d, vol := some p } rfl rfl 2
  rw [show (2 : Nat) + 2 = State.fuel from rfl,hdrain] at hdrain'
  obtain ⟨rfl,rfl⟩ := Prod.mk.inj hdrain'
  have hlog := hun.core.ok.log
  have hlen : ((H.log n).take p.raft.raftLog.committed).length < 2 ^ 64 :=
    Nat.lt_of_le_of_lt (List.take_prefix _ _).length_le hread.length
  have hruns₁ : Runs p₁ (w₁.nodes n) := by
    rw [hns]
    exact ⟨rfl,by simp only [hp₁,hlog.advance_raftLog t.storage hrd],rfl,applyAll_machine hlen,rfl,hruns.ready⟩
  have hmirrors : Mirrors ({ disk := t.storage, vol := some p₁ } : Host (serving S).app) (w₁.nodes n) :=
    hruns₁.mirrors (by rw [hns]; exact hup) (by rw [hns]) rfl
  obtain ⟨h',hh',har',hm',hk',hg',happ',hnone'⟩ := compacts (w := w₁) hok rfl hmirrors (by rw [hns]; exact hkept)
  -- One round is enough.
  have hstop : w.drainLoop n State.fuel = w₁.maybeCompact n := by
    have hidle : ∀ r, ((w₁.maybeCompact n).nodes n).up? = some r → r.hasReady = false := by
      intro r hr
      obtain ⟨q,hq,hrq⟩ := hm'.up r hr
      have hnode' : ((w₁.maybeCompact n).nodes n).node = some r := by
        rw [← NodeState.up?_of_not_crashed (hm'.peer hq).2]
        exact hr
      rw [hrq.node] at hnode'
      obtain rfl := Option.some.inj hnode'
      have happ₁ : p₁.raft.raftLog.committed ≤ p₁.raft.raftLog.applied := by
        simp only [hp₁,hlog.advance_raftLog t.storage hrd]
        exact le_rfl
      rcases hh' with rfl | rfl
      · obtain rfl := Option.some.inj hq
        exact not_ready (hok.peer _ rfl) happ₁
      have hpk := hok.compact.1.peer q hq
      obtain ⟨_,_,hp₂,rfl⟩ := hok.compact.2.2 q hq
      obtain rfl := Option.some.inj hp₂
      exact not_ready hpk happ₁
    unfold State.fuel World.drainLoop
    rw [hnode]
    dsimp only
    rw [if_neg (by rw [hruns.ready,hready]; simp),hround]
    dsimp only
    unfold World.drainLoop
    cases hr : ((w₁.maybeCompact n).nodes n).up? with
    | none => rfl
    | some r =>
      dsimp only
      rw [if_pos (.inr (hidle r hr))]
  rw [hstop]
  have hgrows : Grows (w.nodes n).storage (w₁.nodes n).storage := by
    have := grows_persist n (w.nodes n).storage rd
    rw [hpersist] at this
    rw [hns]
    exact this
  refine ⟨_,h',[rd],hdrain,hh',?_,⟨htells.replies.trans (replies_maybeCompact w₁),fun hl rs hrs i c hc hp => ?_⟩,hm',hk',
    hgrows.trans hg',fun rec hrec => ?_,?_⟩
  · rw [List.flatMap_singleton]
    exact har.trans (har'.mono (List.nil_subset _))
  · exact htells.served hl rs hrs i c ((replies_maybeCompact (J := fun _ _ _ => True) w₁).waiting hc hp) hp
  · rw [happ',hns] at hrec
    rcases List.mem_append.mp hrec with hrec | hrec
    · exact .inl hrec
    obtain ⟨e,he,rfl⟩ := List.mem_map.mp hrec
    rw [(hlog.readyOf hrd).committedEntries] at he
    obtain ⟨i,hi⟩ := List.mem_iff_getElem?.mp he
    rw [List.getElem?_drop] at hi
    have hat := (hlog.repr.indexed.of_isPrefix (List.take_prefix p.raft.raftLog.committed _)) _ e hi
    exact .inr ⟨_,_,e,hlog.committed,by omega,by rw [hat]; exact hi,rfl⟩
  · rw [hnone',hns]
    exact hnone

end Parallax.Simulation
