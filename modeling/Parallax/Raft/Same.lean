import Parallax.Raft.Moves

/-! What the parts of a step leave alone. Sending touches only the outbox, and the pending
reads that ride on heartbeats. -/
namespace Parallax
namespace Raft

/-- `r'` differs from `r` at most in its outbox, its reads and its panic flag. -/
structure Same (r r' : Raft) : Prop where
  cfg : r'.cfg = r.cfg
  id : r'.id = r.id
  term : r'.term = r.term
  vote : r'.vote = r.vote
  raftLog : r'.raftLog = r.raftLog
  state : r'.state = r.state
  lead : r'.lead = r.lead
  peers : r'.peers = r.peers
  prs : r'.prs = r.prs
  votes : r'.votes = r.votes
  electionElapsed : r'.electionElapsed = r.electionElapsed
  prevHardSt : r'.prevHardSt = r.prevHardSt

namespace Same

theorem refl (r : Raft) : Same r r := ⟨rfl,rfl,rfl,rfl,rfl,rfl,rfl,rfl,rfl,rfl,rfl,rfl⟩

theorem trans {r r' r'' : Raft} (h : Same r r') (h' : Same r' r'') : Same r r'' :=
  ⟨h'.cfg.trans h.cfg,h'.id.trans h.id,h'.term.trans h.term,h'.vote.trans h.vote,h'.raftLog.trans h.raftLog,
    h'.state.trans h.state,h'.lead.trans h.lead,h'.peers.trans h.peers,h'.prs.trans h.prs,
    h'.votes.trans h.votes,h'.electionElapsed.trans h.electionElapsed,h'.prevHardSt.trans h.prevHardSt⟩

theorem foldl {α : Type} {f : Raft → α → Raft} (hf : ∀ r a, Same r (f r a)) (as : List α) (r : Raft) :
    Same r (as.foldl f r) := by
  induction as generalizing r with
  | nil => exact refl r
  | cons a as ih => exact (hf r a).trans (ih _)

end Same

variable (r : Raft)

theorem send_same (m : Message) : Same r (r.send m) := ⟨rfl,rfl,rfl,rfl,rfl,rfl,rfl,rfl,rfl,rfl,rfl,rfl⟩

theorem panic_same (p : Panic) : Same r (r.panic p) := ⟨rfl,rfl,rfl,rfl,rfl,rfl,rfl,rfl,rfl,rfl,rfl,rfl⟩

private theorem sendSnapshot_cases (id : Nat) : r.sendSnapshot id = r ∨ (∃ p, r.sendSnapshot id = r.panic p) ∨
    ∃ m, r.sendSnapshot id = r.send m ∧ (m.type = .append ∨ m.type = .installSnapshot) ∧ m.term = 0 := by
  unfold sendSnapshot
  dsimp only
  split
  · exact .inl rfl
  · exact .inr (.inr ⟨_,rfl,.inr rfl,rfl⟩)

/-- `sendAppend` sends at most one message, with a part of the log. -/
theorem sendAppend_cases (id : Nat) : r.sendAppend id = r ∨ (∃ p, r.sendAppend id = r.panic p) ∨
    ∃ m, r.sendAppend id = r.send m ∧ (m.type = .append ∨ m.type = .installSnapshot) ∧ m.term = 0 := by
  unfold sendAppend
  split
  · exact .inl rfl
  dsimp only
  split
  · exact r.sendSnapshot_cases id
  split
  · split
    · exact .inr (.inl ⟨_,rfl⟩)
    · exact r.sendSnapshot_cases id
  · exact .inr (.inr ⟨_,rfl,.inl rfl,rfl⟩)

theorem sendAppend_same (id : Nat) : Same r (r.sendAppend id) := by
  rcases r.sendAppend_cases id with h | ⟨p,h⟩ | ⟨m,h,_⟩ <;> rw [h]
  · exact .refl r
  · exact r.panic_same p
  · exact r.send_same m

theorem bcastAppend_same : Same r r.bcastAppend := by
  apply Same.foldl
  intro r id
  split
  · exact Same.refl r
  · exact r.sendAppend_same id

private theorem sendHeartbeat_same (ctx : Bytes) (id : Nat) : Same r (r.sendHeartbeat ctx id) := by
  unfold sendHeartbeat
  split
  · exact r.panic_same _
  · exact r.send_same _

theorem bcastHeartbeatWithCtx_same (ctx : Bytes) : Same r (r.bcastHeartbeatWithCtx ctx) := by
  apply Same.foldl
  intro r id
  split
  · exact Same.refl r
  · exact r.sendHeartbeat_same ctx id

theorem bcastHeartbeat_same : Same r r.bcastHeartbeat := by
  unfold bcastHeartbeat
  split
  · exact r.panic_same _
  · exact r.bcastHeartbeatWithCtx_same _

private theorem reads_same (rss : List ReadState) (ro : ReadOnly) (ms : List Message) :
    Same r { r with readStates := rss, readOnly := ro, pendingReadIndexMessages := ms } :=
  ⟨rfl,rfl,rfl,rfl,rfl,rfl,rfl,rfl,rfl,rfl,rfl,rfl⟩

theorem sendReadIndex_same (m : Message) : Same r (r.sendReadIndex m) := by
  unfold sendReadIndex
  split
  · exact r.reads_same _ _ _
  · exact (r.reads_same r.readStates _ r.pendingReadIndexMessages).trans (bcastHeartbeatWithCtx_same _ _)

theorem releasePendingReadIndexMessages_same : Same r r.releasePendingReadIndexMessages := by
  unfold releasePendingReadIndexMessages
  split
  · exact Same.refl r
  · exact (r.reads_same r.readStates r.readOnly []).trans (Same.foldl (fun r m => r.sendReadIndex_same m) _ _)

private theorem catchUp_same (id : Nat) : Same r (r.catchUp id) := by
  unfold catchUp
  split
  · exact Same.refl r
  split
  · exact r.sendAppend_same id
  · exact Same.refl r

theorem confirmReads_same (m : Message) : Same r (r.confirmReads m) := by
  unfold confirmReads
  simp only
  split
  · exact Same.refl r
  split
  · exact r.reads_same r.readStates _ r.pendingReadIndexMessages
  · exact r.reads_same _ _ r.pendingReadIndexMessages

theorem confirmReads_msgs (m : Message) : (r.confirmReads m).msgs = r.msgs := by
  unfold confirmReads
  dsimp only
  split
  · rfl
  · split <;> rfl

theorem handleHeartbeatResp_same (m : Message) : Same r (r.handleHeartbeatResp m) :=
  (r.catchUp_same m.sender).trans (confirmReads_same _ m)

theorem stepReadIndex_same (m : Message) : Same r (r.stepReadIndex m).1 := by
  unfold stepReadIndex
  split
  · exact Same.refl r
  split
  · exact r.sendReadIndex_same m
  · exact r.reads_same r.readStates r.readOnly _

theorem rejectSticky_same (m : Message) : Same r (r.rejectSticky m) := by
  unfold rejectSticky
  split <;> exact r.send_same _

theorem rejectStale_same (m : Message) : Same r (r.rejectStale m) := by
  unfold rejectStale
  split <;> first | exact r.send_same _ | exact Same.refl r

theorem Solicits.same {r r' : Raft} (h : Solicits r r') : Same r r' := by
  obtain ⟨ms,p,rfl,_⟩ := h
  exact ⟨rfl,rfl,rfl,rfl,rfl,rfl,rfl,rfl,rfl,rfl,rfl,rfl⟩

/-- A commit moves the commit index only. -/
theorem maybeCommit_cases : Same r r.maybeCommit.1 ∧ r.maybeCommit.2 = false ∨
    ∃ i, Same { r with raftLog := r.raftLog.commitTo i } r.maybeCommit.1 ∧ r.maybeCommit.2 = true := by
  unfold maybeCommit
  split
  · exact .inl ⟨r.panic_same _,rfl⟩
  simp only
  split
  · exact .inl ⟨r.panic_same _,rfl⟩
  rename_i mci _
  split
  · exact .inl ⟨Same.refl r,rfl⟩
  rename_i l hl
  have hcommit : l = r.raftLog.commitTo mci := by
    unfold RaftLog.maybeCommit at hl
    simp only at hl
    split_ifs at hl
    · exact (Prod.mk.inj hl).1.symm
    · cases (Prod.mk.inj hl).2
    · cases (Prod.mk.inj hl).2
  exact .inr ⟨mci,hcommit ▸ releasePendingReadIndexMessages_same _,rfl⟩

end Raft
end Parallax
