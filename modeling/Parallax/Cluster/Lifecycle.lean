import Parallax.Cluster.Drain

/-! Start, input and compaction of one node, and what they mean to the others. -/
namespace Parallax

@[simp] theorem RaftLog.append_snapshot (l : RaftLog) (ents : List Entry) :
    (l.append ents).unstable.snapshot = l.unstable.snapshot := by
  unfold RaftLog.append Unstable.truncateAppend RaftLog.panic
  cases ents with
  | nil => rfl
  | cons e es =>
    simp only
    split_ifs <;> rfl

@[simp] theorem RaftLog.maybeAppend_snapshot (l : RaftLog) (i t c : Nat) (ents : List Entry) :
    (l.maybeAppend i t c ents).1.unstable.snapshot = l.unstable.snapshot := by
  unfold RaftLog.maybeAppend RaftLog.panic
  split
  · simp only [RaftLog.commitTo_unstable]
    split_ifs
    · rfl
    · rfl
    · simp
  · rfl

/-- Only a snapshot that arrives is ever pending. -/
theorem Raft.LogEffect.no_snapshot {r r' : Raft} {i : Option Message} (h : Raft.LogEffect r i r')
    (hr : r.raftLog.unstable.snapshot = none) (hi : ∀ m, i = some m → m.type ≠ .installSnapshot) :
    r'.raftLog.unstable.snapshot = none := by
  cases h with
  | quiet hq => rw [hq.unstable,hr]
  | lead es _ _ _ hu => rw [hu,RaftLog.append_snapshot,hr]
  | take m _ _ _ _ _ _ _ hu => rw [hu,RaftLog.maybeAppend_snapshot,hr]
  | restore m _ hm ht => exact absurd ht (hi m hm)

namespace Cluster
open Consensus Consensus.History
variable {S : Setup} {H H' : Hist} {n : Nat}

/-- After an input the node is ready to be drained. -/
theorem PeerOK.undrained {d : Storage} {p : Peer S.app} (h : PeerOK S H n d p) {r' : Raft}
    {i : Option Message} (hf : Frame n H H') (ha : At S H' n r') (he : Raft.LogEffect p.raft i r') :
    Undrained S H' n d { p with raft := r' } := by
  have hk := he.kept
  have hlog := h.core.ok.log
  -- Only a snapshot install moves the applied index.
  have happ : (r'.raftLog.unstable.snapshot = none ∧ r'.raftLog.applied = p.raft.raftLog.applied) ∨
      ∃ snap, r'.raftLog.unstable.snapshot = some snap ∧ p.raft.raftLog.committed < snap.metadata.index ∧
        r'.raftLog.applied = snap.metadata.index ∧ r'.raftLog.committed = snap.metadata.index := by
    cases he with
    | quiet hq => exact .inl ⟨by rw [hq.unstable]; exact h.clean.1,hq.applied⟩
    | lead es _ _ _ hu ha _ => exact .inl ⟨by rw [hu,RaftLog.append_snapshot]; exact h.clean.1,ha⟩
    | take m _ _ _ _ _ _ _ hu ha => exact .inl ⟨by rw [hu,RaftLog.maybeAppend_snapshot]; exact h.clean.1,ha⟩
    | restore _ snap _ _ _ hc hu hcm ha =>
      refine .inr ⟨snap,by rw [hu]; rfl,hc,?_,hcm⟩
      rw [ha,if_pos (Nat.lt_of_le_of_lt hlog.applied_le hc)]
  refine ⟨ha,?_,?_,?_,?_,?_,?_,?_,?_,?_,?_⟩
  · simp only
    rw [hk.storage]
    exact h.entries
  · simp only
    rw [hk.storage]
    exact h.snapshot
  · simp only
    rw [hk.prevHardSt,h.prev]
    exact ⟨h.disk.1.symm,h.disk.2.1.symm⟩
  · simp only
    rw [hk.storage]
    exact ⟨h.mirror.1.trans h.disk.1.symm,h.mirror.2.1.trans h.disk.2.1.symm,h.mirror.2.2.trans hk.committed⟩
  · simp only
    rw [hk.storage,hk.prevHardSt,h.recover,h.prev]
    rfl
  · exact h.disk.2.2.trans hk.committed
  · intro rec hrec
    obtain ⟨hs,rfl,h1,h2,h3⟩ := h.buf rec hrec
    exact ⟨hs,rfl,h1.trans h.disk.1.symm,h2.trans h.disk.2.1.symm,h3.trans hk.committed⟩
  · intro hs
    rcases happ with ⟨_,h2⟩ | ⟨snap,h1,_⟩
    · exact h.applied.trans h2.symm
    · rw [hs] at h1
      cases h1
  · intro snap hs
    rcases happ with ⟨h1,_⟩ | ⟨snap',h1,h2,h3⟩
    · rw [hs] at h1
      cases h1
    rw [hs] at h1
    obtain rfl := Option.some.inj h1
    refine ⟨?_,h3⟩
    change p.applied < _
    rw [h.applied]
    exact Nat.lt_of_le_of_lt hlog.applied_le h2
  rcases happ with ⟨h1,h2⟩ | ⟨snap,h1,_⟩
  · left
    have hle : p.applied ≤ p.raft.raftLog.committed := h.applied ▸ hlog.applied_le
    have hq : H'.CommittedBy p.raft.term ((H.log n).take p.applied) :=
      (hlog.committed.of_isPrefix (List.take_prefix_take_left hle)).ext hf.ext
    have hql : ((H.log n).take p.applied).length = p.applied := by
      rw [List.length_take,min_eq_left (hle.trans hlog.commit_le)]
    have hp := ha.ok.log.prefix_log ha.good hq (by rw [hql]; exact hle.trans hk.committed)
    have := List.prefix_iff_eq_take.mp hp
    rw [hql] at this
    change p.sm = _
    rw [h.sm,this]
  · exact .inr ⟨snap,h1⟩

/-- The log that `newRaft` makes of a disk. -/
def recoverLog (d : Storage) : RaftLog :=
  if d.hardState.commit > (RaftLog.newLog d).committed then (RaftLog.newLog d).commitTo d.hardState.commit
  else RaftLog.newLog d

private theorem newLog_committed (d : Storage) : (RaftLog.newLog d).committed = d.offset := Nat.add_sub_cancel _ _

private theorem newLog_applied (d : Storage) : (RaftLog.newLog d).applied = d.offset := Nat.add_sub_cancel _ _

theorem recoverLog_storage (d : Storage) : (recoverLog d).storage = d := by
  unfold recoverLog
  split_ifs <;> simp [RaftLog.newLog]

theorem recoverLog_applied (d : Storage) : (recoverLog d).applied = d.offset := by
  unfold recoverLog
  split_ifs
  · rw [RaftLog.commitTo_applied,newLog_applied]
  · exact newLog_applied d

theorem DiskOK.recoverLog_unstable {d : Storage} (h : DiskOK S H n d) :
    (recoverLog d).unstable = { offset := (H.log n).length + 1 } := by
  unfold recoverLog
  split_ifs <;> simp [RaftLog.newLog,h.repr.lastIndex]

theorem DiskOK.recoverLog_committed {d : Storage} (h : DiskOK S H n d) :
    (recoverLog d).committed = max d.offset d.hardState.commit ∧ (recoverLog d).panicked = none := by
  have hr : (RaftLog.newLog d).Repr (H.log n) :=
    RaftLog.Repr.of_storage h.repr (by simp [RaftLog.newLog,h.repr.lastIndex])
  obtain ⟨hc,hp⟩ := hr.commitTo_eq h.commit_le
  unfold recoverLog
  split_ifs with hgt
  · rw [hc,newLog_committed]
    exact ⟨rfl,hp⟩
  · rw [newLog_committed] at hgt ⊢
    exact ⟨by omega,rfl⟩

theorem DiskOK.snapshot_eq_take {d : Storage} (h : DiskOK S H n d) (hg : Good S H) {q : List Entry}
    (hq : q.length = d.offset) {t : Nat} (hqc : H.CommittedBy t q)
    (hqt : d.snapshot.metadata.term = termAt q q.length) : q = (H.log n).take d.offset := by
  have ht : (H.log n).take d.offset = q.take d.offset := by
    apply take_eq_of_termAt_eq (hg.inv.log_coh n) (hg.committed_coherent hqc) h.repr.le hq.ge
    rw [← h.repr.term,hqt,hq]
  rw [ht,List.take_of_length_le hq.le]

theorem DiskOK.logOK {d : Storage} (h : DiskOK S H n d) (hg : Good S H) :
    LogOK S H n d.hardState.term (recoverLog d) := by
  obtain ⟨q,hq,hqc,hqt,_⟩ := h.snap
  obtain ⟨hc,hp⟩ := h.recoverLog_committed
  have hu := h.recoverLog_unstable
  have hs := recoverLog_storage d
  have hb : (recoverLog d).base = d.snapshot.metadata := by
    unfold RaftLog.base
    rw [hu,hs]
  refine ⟨hp,RaftLog.Repr.of_storage (by rw [hs]; exact h.repr) hu,?_,?_,?_,?_,by rw [hs]; exact h.snap,?_⟩
  · rw [hb,recoverLog_applied]
    exact le_rfl
  · rw [recoverLog_applied,hc]
    exact le_max_left _ _
  · rw [hc]
    exact max_le h.repr.le h.commit_le
  · rw [hc]
    rcases max_choice d.offset d.hardState.commit with hm | hm <;> rw [hm]
    · rw [← h.snapshot_eq_take hg hq hqc hqt]
      exact hqc
    · exact h.committed
  intro snap hsnap
  rw [hu] at hsnap
  cases hsnap

theorem newRaft_shape (cfg : Config) (d : Storage) (rand : Nat → Nat) :
    Raft.newRaft cfg d rand = { Raft.newRaft cfg d rand with
      cfg := cfg, id := cfg.id, raftLog := recoverLog d, term := d.hardState.term, vote := d.hardState.vote
      state := .follower, lead := None, msgs := [], readStates := [], readOnly := {}, panicked := none
      peers := cfg.peers.insertionSort (· ≤ ·), votes := ∅
      prs := Raft.initProgress cfg.id (recoverLog d).lastIndex (cfg.peers.insertionSort (· ≤ ·))
      prevHardSt := { term := d.hardState.term, vote := d.hardState.vote, commit := (recoverLog d).committed } } := by
  unfold Raft.newRaft recoverLog
  simp only
  split_ifs <;> simp [Raft.becomeFollower,Raft.reset,Raft.resetRandomizedElectionTimeout,Raft.hardState]

theorem newRaft_raftLog (cfg : Config) (d : Storage) (rand : Nat → Nat) :
    (Raft.newRaft cfg d rand).raftLog = recoverLog d := by rw [newRaft_shape]

theorem DiskOK.newRaft_ok {d : Storage} (h : DiskOK S H n d) (hn : n ∈ S.peers) (hg : Good S H) (rand : Nat → Nat) :
    Ok S H n (Raft.newRaft (S.cfg n) d rand) := by
  have hperm : ((S.cfg n).peers.insertionSort (· ≤ ·)).Perm S.peers :=
    (List.perm_insertionSort _ _).trans (S.cfg_peers n hn)
  rw [newRaft_shape]
  exact
    { id := S.cfg_id n hn, peers := hperm, panicked := rfl, log := h.logOK hg, durable := h.durable
      leads := fun hs => by cases hs
      com := fun hs => by cases hs
      stands := fun hs => by cases hs
      prs := fun v hv => by
        change ((Raft.initProgress _ _ _).lookup v).isSome
        rw [Raft.lookup_initProgress,if_pos (hperm.mem_iff.mpr hv)]
        rfl
      reads := ReadOnly.WF.empty
      lead := fun hne => absurd rfl hne
      msgs := fun m hm => by cases hm
      msgs_term := fun m hm => by cases hm
      probes := fun m hm => by cases hm }

theorem DiskOK.peerOK {d : Storage} (h : DiskOK S H n d) (hn : n ∈ S.peers) (hg : Good S H) (rand : Nat → Nat)
    {sm : S.app.State} (hsm : sm = applyAll S.app ((H.log n).take d.offset)) :
    PeerOK S H n d ({ raft := Raft.newRaft (S.cfg n) d rand, sm := sm, applied := d.offset } : Peer S.app) := by
  obtain ⟨hc,_⟩ := h.recoverLog_committed
  have hshape := newRaft_shape (S.cfg n) d rand
  have hrl := newRaft_raftLog (S.cfg n) d rand
  have hbehind : Behind d.hardState (Raft.newRaft (S.cfg n) d rand) := by
    rw [hshape]
    refine ⟨rfl,rfl,?_⟩
    change _ ≤ (recoverLog d).committed
    rw [hc]
    exact le_max_right _ _
  refine ⟨⟨hn,hg,h.newRaft_ok hn hg rand⟩,?_,?_,?_,?_,?_,?_,?_,?_,hbehind,by simp,?_,hsm⟩
  · simp only
    rw [hrl,RaftLog.Clean,h.recoverLog_unstable]
    exact ⟨rfl,rfl⟩
  · simp only
    rw [hshape]
  · simp only
    rw [hshape]
  · simp only
    rw [hshape]
    rfl
  · simp only
    rw [hrl,recoverLog_storage]
  · simp only
    rw [hrl,recoverLog_storage]
  · simp only
    rw [hrl,recoverLog_storage]
    exact hbehind
  · simp only
    rw [hrl,recoverLog_storage,hc,max_comm]
  · simp only
    rw [hrl,recoverLog_applied]

/-- Starting over a sound disk succeeds. -/
theorem DiskOK.start {d : Storage} (h : DiskOK S H n d) (hn : n ∈ S.peers) (hg : Good S H)
    (rand : Nat → Nat) : ∃ p : Peer S.app, Peer.start (S.cfg n) d rand = some p ∧ PeerOK S H n d p ∧
      p.raft = Raft.newRaft (S.cfg n) d rand := by
  obtain ⟨q,hq,hqc,hqt,hqd⟩ := h.snap
  unfold Peer.start
  simp only [(h.newRaft_ok hn hg rand).failed,Bool.false_eq_true,if_false]
  split
  · rename_i hpos
    have hdata := hqd hpos
    have hlen : d.snapshot.data.length > 0 := by
      rw [hdata]
      exact List.length_pos_iff.mpr (S.app.snapshot_ne _)
    rw [if_pos hlen,hdata,S.app.restore_snapshot]
    exact ⟨_,rfl,h.peerOK hn hg rand (congrArg _ (h.snapshot_eq_take hg hq hqc hqt)),rfl⟩
  rename_i hz
  have hz' : d.offset = 0 := by
    unfold Storage.offset
    omega
  have hinit : S.app.init = applyAll S.app ((H.log n).take d.offset) := by
    rw [hz']
    rfl
  have hp := h.peerOK hn hg rand hinit
  rw [hz'] at hp
  exact ⟨_,rfl,hp,rfl⟩

theorem PeerOK.snapOK {d : Storage} {p : Peer S.app} (h : PeerOK S H n d p) : SnapOK S H p.raft.term
    { metadata := { index := p.applied, term := termAt (H.log n) p.applied }, data := S.app.snapshot p.sm } := by
  have hlog := h.core.ok.log
  have hle : p.applied ≤ (H.log n).length := h.applied ▸ hlog.applied_le.trans hlog.commit_le
  refine ⟨(H.log n).take p.applied,List.length_take_of_le hle,?_,?_,fun _ => ?_⟩
  · exact hlog.committed.of_isPrefix (List.take_prefix_take_left (h.applied ▸ hlog.applied_le))
  · rw [List.length_take_of_le hle,termAt_take le_rfl]
  · rw [h.sm]

theorem PeerOK.compacted {d d' : Storage} {p : Peer S.app} (h : PeerOK S H n d p) {snap : Snapshot} {es : List Entry}
    (hi : snap.metadata.index = p.applied) (hgt : p.raft.raftLog.storage.offset < p.applied) (hok : SnapOK S H p.raft.term snap)
    (hrep : ({ p.raft.raftLog.storage with snapshot := snap, entries := es } : Storage).Repr (H.log n))
    (hde : es = d'.entries) (hds : snap = d'.snapshot) (hdh : d'.hardState = d.hardState) :
    PeerOK S H n d' { p with raft := { p.raft with raftLog := { p.raft.raftLog with
      storage := { p.raft.raftLog.storage with snapshot := snap, entries := es } } } } := by
  have ho := h.core.ok
  have hlog := ho.log
  have hu := hlog.repr.unstable_clean h.clean
  refine ⟨⟨h.core.mem,h.core.good,{ ho with log := ?_ }⟩,h.clean,h.msgs,h.reads,h.prev,hde,hds,h.mirror,?_,
    by rw [hdh]; exact h.disk,h.buf,h.applied,h.sm⟩
  · refine ⟨hlog.panicked,RaftLog.Repr.of_storage hrep hu,?_,hlog.applied_le,hlog.commit_le,hlog.committed,hok,?_⟩
    · simp only [RaftLog.base,hu]
      rw [hi,← h.applied]
    intro snap' hs'
    simp only [hu] at hs'
    cases hs'
  -- A commit index that only the old snapshot told would be below the new one.
  have hrec := h.recover
  have hap : p.applied ≤ p.raft.raftLog.committed := h.applied ▸ hlog.applied_le
  change max p.raft.raftLog.storage.hardState.commit snap.metadata.index = p.raft.raftLog.committed
  rw [hi]
  omega

theorem HostOK.compact {h : Host S.app} (hh : HostOK S H n h) : HostOK S H n h.compact ∧
    h.compact.disk.hardState = h.disk.hardState ∧ ∀ p', h.compact.vol = some p' →
      ∃ p st, h.vol = some p ∧ p' = { p with raft := { p.raft with raftLog := { p.raft.raftLog with storage := st } } } := by
  have hsame : ∀ p', h.vol = some p' → ∃ p st, h.vol = some p ∧
      p' = { p with raft := { p.raft with raftLog := { p.raft.raftLog with storage := st } } } :=
    fun p' hp' => ⟨p',p'.raft.raftLog.storage,hp',rfl⟩
  unfold Host.compact
  split
  · exact ⟨hh,rfl,hsame⟩
  rename_i p hp
  have hpk := hh.peer p hp
  have hlog := hpk.core.ok.log
  have hrep := hlog.repr.storage hpk.clean
  simp only
  split
  · exact ⟨hh,rfl,hsame⟩
  rename_i hgt
  have hgt' : p.raft.raftLog.storage.offset < p.applied := by
    unfold Storage.offset
    omega
  have hle : p.applied ≤ (H.log n).length := hpk.applied ▸ hlog.applied_le.trans hlog.commit_le
  rw [hrep.term_eq hgt'.le hle]
  simp only
  set snap : Snapshot := { metadata := { index := p.applied, term := termAt (H.log n) p.applied }
                           data := S.app.snapshot p.sm } with hsnap
  have hdgt : h.disk.offset < snap.metadata.index := by
    unfold Storage.offset at *
    rw [← hpk.snapshot]
    exact hgt'
  obtain ⟨es,hes,hrep'⟩ := hrep.applySnapshot_own snap hgt' hle rfl
  obtain ⟨es',hes',hdrep'⟩ := hh.disk.repr.applySnapshot_own snap hdgt hle rfl
  rw [hes,hes']
  have hees : es = es' := by
    have h1 := hrep'.entries
    have h2 := hdrep'.entries
    simp only [Storage.offset] at h1 h2
    rw [h1,h2]
  have hok : SnapOK S H h.disk.hardState.term snap := hpk.disk.1 ▸ hpk.snapOK
  refine ⟨⟨⟨hdrep',hok,hh.disk.durable,hh.disk.commit_le,hh.disk.committed⟩,fun p' hp' => ?_⟩,
    rfl,fun p' hp' => ?_⟩
  · obtain rfl := Option.some.inj hp'
    exact hpk.compacted rfl hgt' hpk.snapOK hrep' hees rfl rfl
  · obtain rfl := Option.some.inj hp'
    exact ⟨p,_,hp,rfl⟩

section frame
variable {q : Nat} (hf : Frame n H H') (hq : q ≠ n)
include hf hq

theorem Durable.frame (hs : ¬ S.quorums.Solo) {term vote : Nat} (h : Durable S H q term vote) :
    Durable S H' q term vote where
  ballot := by rw [hf.ballot q hq]; exact h.ballot
  vote := by rw [hf.ballot q hq]; exact h.vote
  ack := by rw [hf.ack q hq]; exact h.ack
  cand := by rw [hf.cand q hq,hf.ballot q hq]; exact h.cand
  solo hsolo := absurd hsolo hs

theorem DiskOK.frame (hs : ¬ S.quorums.Solo) {d : Storage} (h : DiskOK S H q d) : DiskOK S H' q d where
  repr := by rw [hf.log q hq]; exact h.repr
  snap := h.snap.ext hf.ext
  durable := h.durable.frame hf hq hs
  commit_le := by rw [hf.log q hq]; exact h.commit_le
  committed := by rw [hf.log q hq]; exact h.committed.ext hf.ext

theorem Ok.frame (hs : ¬ S.quorums.Solo) {r : Raft} (h : Ok S H q r) : Ok S H' q r where
  __ := h
  log := h.log.ext hf.ext (hf.log q hq)
  durable := h.durable.frame hf hq hs
  leads hst := by
    have hl := h.leads hst
    refine ⟨hl.elected.ext hf.ext,?_,?_,fun v pr hpr => (hl.matched v pr hpr).trans (hf.ext.ack _ _),?_⟩
    · rw [hf.log q hq,hf.lead q hq _ hl.elected]
      exact hl.log
    · rw [hf.ack q hq,hf.log q hq]
      exact hl.ack
    · rw [hf.log q hq]
      exact hl.next
  com hst := by
    rw [hf.com q hq _ (h.leads hst).elected]
    exact h.com hst
  stands hst := by
    have hc := h.stands hst
    refine ⟨?_,?_,fun he => hc.fresh (hf.elected q hq _ he),hc.pos,fun hsolo => absurd hsolo hs,fun v hv => ?_⟩
    · rw [hf.cand q hq,hf.log q hq]
      exact hc.cand
    · rw [hf.ballot q hq,hf.log q hq]
      exact hc.own
    · obtain ⟨hm,b,hb,hbc⟩ := hc.votes v hv
      exact ⟨hm,b,hf.ext.ballot _ _ _ hb,hbc⟩
  msgs m hm := ⟨(h.msgs m hm).1.ext hf.ext,(h.msgs m hm).2⟩

/-- What another node does leaves a node sound. -/
theorem HostOK.frame (hn : n ∈ S.peers) (hqm : q ∈ S.peers) (hg : Good S H') {h : Host S.app}
    (hh : HostOK S H q h) : HostOK S H' q h := by
  have hs := not_solo_of_ne hq hn hqm
  refine ⟨hh.disk.frame hf hq hs,fun p hp => ?_⟩
  have hpk := hh.peer p hp
  refine { hpk with core := ⟨hqm,hg,hpk.core.ok.frame hf hq hs⟩, sm := ?_ }
  rw [hf.log q hq]
  exact hpk.sm

end frame
end Cluster
end Parallax
