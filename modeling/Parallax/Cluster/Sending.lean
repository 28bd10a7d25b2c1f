import Parallax.Cluster.Ghost
import Parallax.Raft.Outbox

/-! The sending side of a core: every message put on the wire says something true about the
history, and sending changes nothing else. -/
namespace Parallax
namespace Cluster
open Consensus Consensus.History
variable {S : Setup} {H : Hist} {n t : Nat} {r : Raft}

theorem Ok.send (h : Ok S H n r) {m : Message} (hm : MsgOK S H (r.stampMessage m))
    (ht : (r.stampMessage m).type ≠ .preVote → (r.stampMessage m).type ≠ .preVoteResp →
      (r.stampMessage m).term ≤ r.term)
    (hp : (r.stampMessage m).type = .preVote → (r.stampMessage m).term ≤ r.term + 1) : Ok S H n (r.send m) where
  __ := h
  msgs m' hm' := by
    rcases List.mem_append.mp hm' with hm' | hm'
    · exact h.msgs m' hm'
    obtain rfl := List.mem_singleton.mp hm'
    refine ⟨hm,?_⟩
    rw [← h.id]
    unfold Raft.stampMessage
    simp only
    split
    · split <;> rfl
    · rfl
  msgs_term m' hm' := by
    rcases List.mem_append.mp hm' with hm' | hm'
    · exact h.msgs_term m' hm'
    · obtain rfl := List.mem_singleton.mp hm'
      exact ht
  probes m' hm' := by
    rcases List.mem_append.mp hm' with hm' | hm'
    · exact h.probes m' hm'
    · obtain rfl := List.mem_singleton.mp hm'
      exact hp

/-- The usual case: a message stamped with the sender's own term. -/
theorem Ok.send_stamped (h : Ok S H n r) (hn : n ∈ S.peers) (hpos : 0 < r.term) {m : Message}
    (hd : m.dest ≠ n) (hz : m.term = 0) (hs : Raft.Stamped m.type)
    (hm : Content S H { m with sender := n, term := r.term }) : Ok S H n (r.send m) := by
  have hst := r.stampMessage_zero hz hs
  rw [h.id] at hst
  apply h.send
  · rw [hst]
    exact ⟨hn,hd,hpos,hm⟩
  · rw [hst]
    exact fun _ _ => le_rfl
  · rw [hst]
    exact fun _ => Nat.le_succ _

/-- A core that leads term `t`. -/
structure Leading (S : Setup) (H : Hist) (n t : Nat) (r : Raft) : Prop where
  core : At S H n r
  state : r.state = .leader
  term : r.term = t

namespace Leading

theorem leads (h : Leading S H n t r) : Leads H n r.term r.prs := h.core.ok.leads h.state

theorem pos (h : Leading S H n t r) : 0 < r.term := h.core.good.elected_pos h.leads.elected

/-- Updates outside what the invariant looks at. -/
theorem of_ok (h : Leading S H n t r) {r' : Raft} (ho : Ok S H n r') (hs : r'.state = r.state)
    (ht : r'.term = r.term) : Leading S H n t r' :=
  ⟨⟨h.core.mem,h.core.good,ho⟩,hs.trans h.state,ht.trans h.term⟩

private theorem send (h : Leading S H n t r) {m : Message} (hd : m.dest ≠ n) (hz : m.term = 0) (hs : Raft.Stamped m.type)
    (hm : Content S H { m with sender := n, term := r.term }) : Leading S H n t (r.send m) :=
  h.of_ok (h.core.ok.send_stamped h.core.mem h.pos hd hz hs hm) rfl rfl

private theorem commit_witness (h : Leading S H n t r) {i : Nat} (hi : i ≤ r.raftLog.committed) :
    ∃ c, c.length = i ∧ H.CommittedBy r.term c := by
  have hl := h.core.ok.log
  refine ⟨(H.log n).take i,?_,hl.committed.of_isPrefix ?_⟩
  · have := hl.commit_le
    rw [List.length_take]
    omega
  · rw [← min_eq_left hi,← List.take_take]
    exact List.take_prefix _ _

private theorem sendSnapshot (h : Leading S H n t r) {id : Nat} (hid : id ≠ n) : Leading S H n t (r.sendSnapshot id) := by
  unfold Raft.sendSnapshot
  simp only
  split
  · exact h
  rename_i hne
  exact h.send hid rfl (by simp [Raft.Stamped])
    ⟨h.leads.elected,_,rfl,Nat.pos_of_ne_zero hne,h.core.ok.log.snap⟩

theorem entriesToSend (h : Leading S H n t r) {lo : Nat} (hlo : 1 ≤ lo)
    (hhi : lo ≤ (H.log n).length + 1) {ents : List Entry} (he : r.entriesToSend lo = .ok ents) :
    r.raftLog.base.index < lo ∧ (H.log n).take (lo - 1) ++ ents <+: H.log n := by
  have hr := h.core.ok.log.repr
  have hbl := hr.le
  unfold Raft.entriesToSend at he
  simp only [hr.lastIndex] at he
  split at he
  · obtain rfl := Except.ok.inj he
    exact ⟨by omega,by simpa using List.take_prefix _ _⟩
  by_cases hb : r.raftLog.base.index < lo
  · rw [hr.slice_eq hb hhi] at he
    obtain rfl := Except.ok.inj he
    refine ⟨hb,?_⟩
    split_ifs with hc
    · rw [show (H.log n).take (lo - 1) = ((H.log n).take (lo + r.cfg.maxEntriesPerAppend - 1)).take (lo - 1) by
        rw [List.take_take,min_eq_left (by omega)],List.take_append_drop]
      exact List.take_prefix _ _
    · rw [Nat.add_sub_cancel,List.take_length,List.take_append_drop]
  -- Below the boundary `slice` answers ErrCompacted.
  exfalso
  unfold RaftLog.slice at he
  rw [hr.firstIndex,if_neg (by split_ifs <;> omega),if_pos (by omega)] at he
  cases he

theorem entriesToSend_error (h : Leading S H n t r) {lo : Nat} {err : StorageErr} (he : r.entriesToSend lo = .error err) :
    err ≠ .outOfRange := by
  have hr := h.core.ok.log.repr
  have hbl := hr.le
  unfold Raft.entriesToSend at he
  simp only [hr.lastIndex] at he
  split at he
  · cases he
  by_cases hb : r.raftLog.base.index < lo
  · rw [hr.slice_eq hb (by omega)] at he
    cases he
  unfold RaftLog.slice at he
  rw [hr.firstIndex,if_neg (by split_ifs <;> omega),if_pos (by omega)] at he
  cases he
  exact fun h => by cases h

theorem sendAppend (h : Leading S H n t r) {id : Nat} (hid : id ≠ n) : Leading S H n t (r.sendAppend id) := by
  unfold Raft.sendAppend
  split
  · exact h
  rename_i pr hpr
  simp only
  split
  · exact h.sendSnapshot hid
  rename_i prevTerm hpt
  split
  · rename_i err herr
    rw [if_neg (h.entriesToSend_error herr)]
    exact h.sendSnapshot hid
  rename_i ents hents
  obtain ⟨hn1,hn2⟩ := h.leads.next id pr hpr
  obtain ⟨hb,hpre⟩ := h.entriesToSend hn1 hn2 hents
  have hr := h.core.ok.log.repr
  rw [hr.term_eq (by omega)] at hpt
  obtain rfl := Except.ok.inj hpt
  refine h.send hid rfl (by simp [Raft.Stamped]) ⟨h.leads.elected,⟨(H.log n).take (pr.next - 1),?_,?_,?_⟩,?_⟩
  · simp
    omega
  · simp only
    rw [List.length_take,min_eq_left (by omega),termAt_take le_rfl]
  · simp only
    rw [← h.leads.log]
    exact hpre
  · exact h.commit_witness le_rfl

theorem bcastAppend (h : Leading S H n t r) : Leading S H n t r.bcastAppend := by
  unfold Raft.bcastAppend
  refine List.foldlRecOn r.peers _ h fun r h id _ => ?_
  split
  · exact h
  · rename_i hne
    exact h.sendAppend (h.core.ok.id ▸ hne)

private theorem sendHeartbeat (h : Leading S H n t r) (ctx : Bytes) {id : Nat} (hid : id ∈ S.peers)
    (hne : id ≠ n) : Leading S H n t (r.sendHeartbeat ctx id) := by
  unfold Raft.sendHeartbeat
  obtain ⟨pr,hpr⟩ := Option.isSome_iff_exists.mp (h.core.ok.prs id hid)
  rw [hpr]
  refine h.send hne rfl (by simp [Raft.Stamped]) ⟨h.leads.elected,?_,h.commit_witness (min_le_right _ _)⟩
  exact (min_le_left _ _).trans (h.leads.matched id pr hpr)

private theorem bcastHeartbeatWithCtx (h : Leading S H n t r) (ctx : Bytes) :
    Leading S H n t (r.bcastHeartbeatWithCtx ctx) := by
  unfold Raft.bcastHeartbeatWithCtx
  have hp := h.core.ok.peers
  refine List.foldlRecOn r.peers _ h fun r h id hid => ?_
  split
  · exact h
  · rename_i hne
    exact h.sendHeartbeat ctx (hp.mem_iff.mp hid) (h.core.ok.id ▸ hne)

theorem bcastHeartbeat (h : Leading S H n t r) : Leading S H n t r.bcastHeartbeat := by
  unfold Raft.bcastHeartbeat
  obtain ⟨ctx,hctx⟩ := h.core.ok.reads.lastPendingRequestCtx
  rw [hctx]
  exact h.bcastHeartbeatWithCtx ctx

theorem sendReadIndex (h : Leading S H n t r) (m : Message) : Leading S H n t (r.sendReadIndex m) := by
  unfold Raft.sendReadIndex
  split
  · exact h.of_ok { h.core.ok with } rfl rfl
  apply bcastHeartbeatWithCtx
  exact h.of_ok { h.core.ok with reads := (h.core.ok.reads.addRequest _ m).recvAck _ _ } rfl rfl

theorem releasePendingReadIndexMessages (h : Leading S H n t r) :
    Leading S H n t r.releasePendingReadIndexMessages := by
  unfold Raft.releasePendingReadIndexMessages
  split
  · exact h
  · refine List.foldlRecOn _ _ (h.of_ok { h.core.ok with } rfl rfl) fun r h m _ => h.sendReadIndex m

end Leading
end Cluster
end Parallax
