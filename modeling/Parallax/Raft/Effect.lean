import Parallax.Raft.LogSpec
import Parallax.Raft.Role

/-! What one input can do to the log of a core: nothing, append as a leader, take over
entries from a leader, or install a snapshot. -/
namespace Parallax

@[simp] theorem RaftLog.commitTo_committed_le (l : RaftLog) (i : Nat) : l.committed ≤ (l.commitTo i).committed := by
  unfold RaftLog.commitTo
  split_ifs
  · exact Nat.le_refl _
  · exact Nat.le_of_lt (by assumption)
  · exact Nat.le_refl _

namespace Raft

/-- Session data that no input touches. -/
structure Kept (r r' : Raft) : Prop where
  cfg : r'.cfg = r.cfg
  id : r'.id = r.id
  peers : r'.peers = r.peers
  prevHardSt : r'.prevHardSt = r.prevHardSt
  storage : r'.raftLog.storage = r.raftLog.storage
  committed : r.raftLog.committed ≤ r'.raftLog.committed

/-- The unpersisted part of the log and the applied index as they were. -/
structure Quiet (r r' : Raft) : Prop extends Kept r r' where
  unstable : r'.raftLog.unstable = r.raftLog.unstable
  applied : r'.raftLog.applied = r.raftLog.applied

theorem Kept.trans {r r' r'' : Raft} (h : Kept r r') (h' : Kept r' r'') : Kept r r'' :=
  ⟨h'.cfg.trans h.cfg,h'.id.trans h.id,h'.peers.trans h.peers,h'.prevHardSt.trans h.prevHardSt,
    h'.storage.trans h.storage,h.committed.trans h'.committed⟩

theorem Quiet.refl (r : Raft) : Quiet r r := ⟨⟨rfl,rfl,rfl,rfl,rfl,Nat.le_refl _⟩,rfl,rfl⟩

theorem Quiet.trans {r r' r'' : Raft} (h : Quiet r r') (h' : Quiet r' r'') : Quiet r r'' :=
  ⟨h.toKept.trans h'.toKept,h'.unstable.trans h.unstable,h'.applied.trans h.applied⟩

theorem Same.quiet {r r' : Raft} (h : Same r r') : Quiet r r' :=
  ⟨⟨h.cfg,h.id,h.peers,h.prevHardSt,by rw [h.raftLog],by rw [h.raftLog]⟩,by rw [h.raftLog],by rw [h.raftLog]⟩

variable (r : Raft)

theorem becomeFollower_quiet (t l : Nat) : Quiet r (r.becomeFollower t l) := ⟨⟨rfl,rfl,rfl,rfl,rfl,Nat.le_refl _⟩,rfl,rfl⟩

private theorem becomePreCandidate_quiet : Quiet r r.becomePreCandidate := by
  unfold becomePreCandidate
  split
  · exact (r.panic_same _).quiet
  · exact ⟨⟨rfl,rfl,rfl,rfl,rfl,Nat.le_refl _⟩,rfl,rfl⟩

private theorem becomeCandidate_quiet : Quiet r r.becomeCandidate := by
  unfold becomeCandidate
  split
  · exact (r.panic_same _).quiet
  · exact ⟨⟨rfl,rfl,rfl,rfl,rfl,Nat.le_refl _⟩,rfl,rfl⟩

theorem recordVote_quiet (v : Nat) (g : Bool) : Quiet r (r.recordVote v g) := by
  unfold recordVote
  split
  · exact ⟨⟨rfl,rfl,rfl,rfl,rfl,Nat.le_refl _⟩,rfl,rfl⟩
  · exact Quiet.refl r

private theorem commitTo_quiet (i : Nat) : Quiet r { r with raftLog := r.raftLog.commitTo i } :=
  ⟨⟨rfl,rfl,rfl,rfl,by simp,by simp⟩,by simp,by simp⟩

theorem maybeCommit_quiet : Quiet r r.maybeCommit.1 := by
  rcases r.maybeCommit_cases with ⟨h,_⟩ | ⟨i,h,_⟩
  · exact h.quiet
  · exact (r.commitTo_quiet i).trans h.quiet

/-- How a core came to write as leader of its term: it led already and was handed a proposal, or it
just won, with its no-op, the term it stood in or the next one. A message never makes a follower lead. -/
inductive LeadBy (r : Raft) (i : Option Message) (es : List Entry) (r' : Raft) : Prop
  | led (hs : r.state = .leader) (ht : r'.term = r.term) (hv : r'.vote = r.vote)
      (he : ∃ m, i = some m ∧ m.type = .propose ∧ es = m.entries.map fun e => { e with type := .normal })
  | stood (hs : r.state = .candidate) (he : es = [{ type := .noop }]) (ht : r'.term = r.term) (hv : r'.vote = r.vote)
  | campaigned (he : es = [{ type := .noop }]) (ht : r'.term = r.term + 1) (hi : r.state = .follower → i = none)

/-- Effect of an input on the log. -/
inductive LogEffect (r : Raft) (i : Option Message) (r' : Raft) : Prop
  | quiet (h : Quiet r r')
  | lead (es : List Entry) (hk : Kept r r') (hs : r'.state = .leader) (hne : es ≠ [])
      (hu : r'.raftLog.unstable =
        (r.raftLog.append (stampEntries r'.term r.raftLog.lastIndex es)).unstable)
      (ha : r'.raftLog.applied = r.raftLog.applied) (hby : LeadBy r i es r')
  | take (m : Message) (hi : i = some m) (hk : Kept r r') (ht : m.type = .append) (hterm : r'.term = m.term)
      (hle : r.term ≤ m.term) (hc : r.raftLog.committed ≤ m.logIndex)
      (hm : r.raftLog.matchTerm m.logIndex m.logTerm = true)
      (hu : r'.raftLog.unstable =
        (r.raftLog.maybeAppend m.logIndex m.logTerm m.commit m.entries).1.unstable)
      (ha : r'.raftLog.applied = r.raftLog.applied)
  | restore (m : Message) (snap : Snapshot) (hi : i = some m) (ht : m.type = .installSnapshot) (hk : Kept r r')
      (hc : r.raftLog.committed < snap.metadata.index)
      (hu : r'.raftLog.unstable = r.raftLog.unstable.restore snap)
      (hcm : r'.raftLog.committed = snap.metadata.index)
      (ha : r'.raftLog.applied =
        if r.raftLog.applied < snap.metadata.index then snap.metadata.index else r.raftLog.applied)

namespace LogEffect
variable {r}
variable {i : Option Message} {r₁ r' r'' : Raft}

theorem kept (h : LogEffect r i r') : Kept r r' := by
  cases h with
  | quiet h => exact h.toKept
  | lead _ hk => exact hk
  | take _ _ hk => exact hk
  | restore _ _ _ _ hk => exact hk

theorem same (h : LogEffect r i r') (hs : Same r' r'') : LogEffect r i r'' := by
  have hq := hs.quiet
  cases h with
  | quiet h => exact .quiet (h.trans hq)
  | lead es hk hst hne hu ha hby =>
    refine .lead es (hk.trans hq.toKept) (hs.state.trans hst) hne ?_ (hq.applied.trans ha) ?_
    · rw [hq.unstable,hu,hs.term]
    cases hby with
    | led h1 h2 h3 h4 => exact .led h1 (hs.term.trans h2) (hs.vote.trans h3) h4
    | stood h1 h2 h3 h4 => exact .stood h1 h2 (hs.term.trans h3) (hs.vote.trans h4)
    | campaigned h1 h2 h3 => exact .campaigned h1 (hs.term.trans h2) h3
  | take m hi hk ht hterm hle hc hm hu ha =>
    exact .take m hi (hk.trans hq.toKept) ht (hs.term.trans hterm) hle hc hm (hq.unstable.trans hu)
      (hq.applied.trans ha)
  | restore m snap hi ht hk hc hu hcm ha =>
    exact .restore m snap hi ht (hk.trans hq.toKept) hc (hq.unstable.trans hu) (by rw [hs.raftLog,hcm])
      (hq.applied.trans ha)

end LogEffect

/-- Appending as a leader. -/
theorem appendEntry_effect (hs : r.state = .leader) (es : List Entry) : Kept r (r.appendEntry es) ∧
    (r.appendEntry es).state = .leader ∧ (r.appendEntry es).term = r.term ∧
    (r.appendEntry es).vote = r.vote ∧ (r.appendEntry es).lead = r.lead ∧
    (r.appendEntry es).raftLog.unstable =
      (r.raftLog.append (stampEntries r.term r.raftLog.lastIndex es)).unstable ∧
    (r.appendEntry es).raftLog.applied = r.raftLog.applied := by
  unfold appendEntry
  simp only
  split
  · exact ⟨⟨rfl,rfl,rfl,rfl,by simp [Raft.panic],by simp [Raft.panic]⟩,hs,rfl,rfl,rfl,rfl,by simp [Raft.panic]⟩
  rename_i pr _
  set r₁ : Raft := { r with
    raftLog := r.raftLog.append (stampEntries r.term r.raftLog.lastIndex es)
    prs := r.prs.insert r.id (pr.maybeUpdate
      (r.raftLog.append (stampEntries r.term r.raftLog.lastIndex es)).lastIndex).1 } with hr₁
  have hq := r₁.maybeCommit_quiet
  have hrest : r₁.maybeCommit.1.state = r₁.state ∧ r₁.maybeCommit.1.term = r₁.term ∧
      r₁.maybeCommit.1.vote = r₁.vote ∧ r₁.maybeCommit.1.lead = r₁.lead := by
    rcases r₁.maybeCommit_cases with ⟨h,_⟩ | ⟨i,h,_⟩
    · exact ⟨h.state,h.term,h.vote,h.lead⟩
    · exact ⟨h.state,h.term,h.vote,h.lead⟩
  have hk₁ : Kept r r₁ := ⟨rfl,rfl,rfl,rfl,by simp [hr₁],by simp [hr₁]⟩
  refine ⟨hk₁.trans hq.toKept,hrest.1.trans hs,hrest.2.1,hrest.2.2.1,hrest.2.2.2,hq.unstable,?_⟩
  rw [hq.applied]
  simp [hr₁]

theorem becomeLeader_effect (hs : r.state ≠ .follower) : Kept r r.becomeLeader ∧
    r.becomeLeader.state = .leader ∧ r.becomeLeader.term = r.term ∧ r.becomeLeader.vote = r.vote ∧
    r.becomeLeader.lead = r.id ∧
    r.becomeLeader.raftLog.unstable =
      (r.raftLog.append (stampEntries r.term r.raftLog.lastIndex [{ type := .noop }])).unstable ∧
    r.becomeLeader.raftLog.applied = r.raftLog.applied := by
  unfold becomeLeader
  rw [if_neg hs]
  obtain ⟨hk,h1,h2,h3,h4,h5,h6⟩ := appendEntry_effect
    { r.reset r.term with lead := r.id, state := .leader } rfl [{ type := .noop }]
  refine ⟨⟨hk.cfg,hk.id,hk.peers,hk.prevHardSt,hk.storage,hk.committed⟩,h1,h2,h3.trans ?_,h4,h5,h6⟩
  simp [reset]

private theorem recordVote_fields (v : Nat) (g : Bool) : (r.recordVote v g).raftLog = r.raftLog ∧
    (r.recordVote v g).state = r.state ∧ (r.recordVote v g).term = r.term ∧
    (r.recordVote v g).vote = r.vote := by
  unfold recordVote
  split <;> exact ⟨rfl,rfl,rfl,rfl⟩

/-- Changes of a core before an effect that do not touch the log: bookkeeping within a role,
the step to pre-candidate, and stepping down on a message. -/
inductive Before (r : Raft) (i : Option Message) (r₁ : Raft) : Prop
  | role (hs : r₁.state = r.state) (ht : r₁.term = r.term) (hv : r₁.vote = r.vote)
  | pre (hs : r₁.state = .preCandidate) (ht : r₁.term = r.term) (hi : r.state = .follower → i = none)
  | down (hs : r₁.state = .follower) (ht : r.term ≤ r₁.term) (hi : i ≠ none)

theorem LogEffect.after {r r₁ r' : Raft} {i : Option Message} (hq : Quiet r r₁)
    (hl : r₁.raftLog = r.raftLog) (hb : Before r i r₁) (h : LogEffect r₁ i r') : LogEffect r i r' := by
  have hle : r.term ≤ r₁.term := by
    cases hb with
    | role _ ht _ => exact ht.symm.le
    | pre _ ht _ => exact ht.symm.le
    | down _ ht _ => exact ht
  cases h with
  | quiet h => exact .quiet (hq.trans h)
  | lead es hk hst hne hu ha hby =>
    refine .lead es (hq.toKept.trans hk) hst hne (by rw [hu,hl]) (ha.trans hq.applied) ?_
    cases hb with
    | role hs ht hv =>
      cases hby with
      | led h1 h2 h3 h4 => exact .led (hs ▸ h1) (h2.trans ht) (h3.trans hv) h4
      | stood h1 h2 h3 h4 => exact .stood (hs ▸ h1) h2 (h3.trans ht) (h4.trans hv)
      | campaigned h1 h2 h3 => exact .campaigned h1 (by rw [h2,ht]) (hs ▸ h3)
    | pre hs ht hi =>
      cases hby with
      | led h1 => rw [hs] at h1; cases h1
      | stood h1 => rw [hs] at h1; cases h1
      | campaigned h1 h2 h3 => exact .campaigned h1 (by rw [h2,ht]) hi
    | down hs _ hi =>
      cases hby with
      | led h1 => rw [hs] at h1; cases h1
      | stood h1 => rw [hs] at h1; cases h1
      | campaigned h1 h2 h3 => exact absurd (h3 hs) hi
  | take m hi hk ht hterm hle' hc hm hu ha =>
    exact .take m hi (hq.toKept.trans hk) ht hterm (hle.trans hle') (hl ▸ hc) (hl ▸ hm) (by rw [hu,hl])
      (ha.trans hq.applied)
  | restore m snap hi ht hk hc hu hcm ha =>
    exact .restore m snap hi ht (hq.toKept.trans hk) (hl ▸ hc) (by rw [hu,hl]) hcm (by rw [ha,hl])

section
variable {i : Option Message}

private theorem becomeLeader_logEffect (hs : r.state = .candidate) : LogEffect r i r.becomeLeader := by
  obtain ⟨hk,h1,h2,h3,_,h4,h5⟩ := r.becomeLeader_effect (by rw [hs]; simp)
  exact .lead [{ type := .noop }] hk h1 (by simp) (by rw [h4,h2]) h5 (.stood hs rfl h2 h3)

private theorem becomeCandidate_raftLog : r.becomeCandidate.raftLog = r.raftLog := by
  unfold becomeCandidate
  split <;> rfl

private theorem becomePreCandidate_raftLog : r.becomePreCandidate.raftLog = r.raftLog := by
  unfold becomePreCandidate
  split <;> rfl

variable {r' : Raft}

private theorem Stands.effect {r : Raft} (h : Stands r r') (hs : r.state ≠ .leader) (hi : r.state = .follower → i = none) :
    LogEffect r i r' := by
  have hq := r.becomeCandidate_quiet.trans (r.becomeCandidate.recordVote_quiet r.becomeCandidate.id true)
  have hl := (r.becomeCandidate.recordVote_fields r.becomeCandidate.id true).1.trans r.becomeCandidate_raftLog
  cases h with
  | asks r₁ _ hr h => exact .quiet ((hr ▸ hq).trans h.same.quiet)
  | wins r₁ hr =>
    obtain ⟨hst,ht,_⟩ := r.stood_role hs hr
    rw [← hr] at hq hl
    obtain ⟨hk,h1,h2,_,_,h5,h6⟩ := r₁.becomeLeader_effect (by rw [hst]; simp)
    exact .lead [{ type := .noop }] (hq.toKept.trans hk) h1 (by simp) (by rw [h5,h2,hl]) (h6.trans hq.applied)
      (.campaigned rfl (h2.trans ht) hi)

private theorem Campaigned.effect {r : Raft} (h : Campaigned r r') (hs : r.state ≠ .leader)
    (hi : r.state = .follower → i = none) : LogEffect r i r' := by
  have hq := r.becomePreCandidate_quiet.trans (r.becomePreCandidate.recordVote_quiet r.becomePreCandidate.id true)
  have hl := (r.becomePreCandidate.recordVote_fields r.becomePreCandidate.id true).1.trans r.becomePreCandidate_raftLog
  cases h with
  | probes r₁ _ hr _ h => exact .quiet ((hr ▸ hq).trans h.same.quiet)
  | passes r₁ _ hr _ h =>
    obtain ⟨hst,ht,_⟩ := r.probed_role hs hr
    rw [← hr] at hq hl
    exact .after hq hl (.pre hst ht hi) (h.effect (by rw [hst]; simp) fun hf => by rw [hst] at hf; cases hf)
  | stands _ _ h => exact h.effect hs hi

private theorem Ticked.effect {r : Raft} (h : Ticked r r') : LogEffect r none r' := by
  cases h with
  | beats =>
    have hq : Quiet r { r with heartbeatElapsed := 0 } := ⟨⟨rfl,rfl,rfl,rfl,rfl,Nat.le_refl _⟩,rfl,rfl⟩
    exact .quiet (hq.trans (bcastHeartbeat_same _).quiet)
  | waits => exact .quiet ⟨⟨rfl,rfl,rfl,rfl,rfl,Nat.le_refl _⟩,rfl,rfl⟩
  | campaigns _ hs h => exact h.effect hs fun _ => rfl

theorem tick_effect : LogEffect r none r.tick := r.tick_ticked.effect

private theorem Balloted.effect {r : Raft} {v : Nat} {g : Bool} {calls : List (Raft × Nat)}
    (h : Balloted r (r.recordVote v g) r' calls) (hs : r.state = .preCandidate ∨ r.state = .candidate) :
    LogEffect r i r' := by
  have hq := r.recordVote_quiet v g
  obtain ⟨hl,hst,ht,hv⟩ := r.recordVote_fields v g
  cases h with
  | waits => exact .quiet hq
  | retires => exact .quiet (hq.trans (becomeFollower_quiet _ _ _))
  | stands _ hp _ h =>
    rw [← hst] at hp
    exact .after hq hl (.role hst ht hv) (h.effect (by rw [hp]; simp) fun hf => by rw [hp] at hf; cases hf)
  | wins hp =>
    exact .after hq hl (.role hst ht hv)
      (LogEffect.same (becomeLeader_logEffect _ (hst.trans (hs.resolve_left hp))) (bcastAppend_same _))

end

private theorem handleAppend_effect {m : Message} (ht : m.type = .append) (hterm : m.term = r.term) :
    LogEffect r (some m) (r.handleAppend m) := by
  unfold handleAppend
  split
  · exact .quiet (r.send_same _).quiet
  rename_i hc
  by_cases hm : r.raftLog.matchTerm m.logIndex m.logTerm = true
  · have hres : ∃ l, r.raftLog.maybeAppend m.logIndex m.logTerm m.commit m.entries =
        (l,some (m.logIndex + m.entries.length)) ∧ l.storage = r.raftLog.storage ∧
        l.applied = r.raftLog.applied ∧ r.raftLog.committed ≤ l.committed := by
      unfold RaftLog.maybeAppend
      rw [if_pos hm]
      refine ⟨_,rfl,?_,?_,Nat.le_trans ?_ (RaftLog.commitTo_committed_le _ _)⟩
      · simp only [RaftLog.commitTo_storage]
        split_ifs
        · rfl
        · rfl
        · exact RaftLog.append_storage _ _
      · simp only [RaftLog.commitTo_applied]
        split_ifs
        · rfl
        · rfl
        · exact RaftLog.append_applied _ _
      split_ifs
      · exact Nat.le_refl _
      · exact Nat.le_refl _
      · simp
    obtain ⟨l,hl,hst,ha,hcm⟩ := hres
    rw [hl]
    refine .take m rfl ⟨rfl,rfl,rfl,rfl,hst,hcm⟩ ht hterm.symm hterm.symm.le (by omega) hm ?_ ha
    rw [hl]
    rfl
  have hres : r.raftLog.maybeAppend m.logIndex m.logTerm m.commit m.entries = (r.raftLog,none) := by
    unfold RaftLog.maybeAppend
    rw [if_neg hm]
  rw [hres]
  exact .quiet (r.send_same _).quiet

private theorem handleHeartbeat_effect (m : Message) : Quiet r (r.handleHeartbeat m) :=
  (r.commitTo_quiet _).trans (send_same _ _).quiet

private theorem handleSnapshot_effect {m : Message} (ht : m.type = .installSnapshot) :
    LogEffect r (some m) (r.handleSnapshot m) := by
  unfold handleSnapshot
  split
  · exact .quiet (Quiet.refl r)
  rename_i snap _
  unfold restore
  by_cases hc : snap.metadata.index ≤ r.raftLog.committed
  · rw [if_pos hc]
    exact .quiet (r.send_same _).quiet
  rw [if_neg hc]
  split_ifs with hm
  · exact .quiet ((r.commitTo_quiet _).trans (send_same _ _).quiet)
  have hr : LogEffect r (some m) { r with raftLog := r.raftLog.restore snap } :=
    .restore m snap rfl ht ⟨rfl,rfl,rfl,rfl,rfl,Nat.le_of_lt (Nat.lt_of_not_le hc)⟩ (by omega) rfl rfl rfl
  exact hr.same (send_same _ _)

private theorem Reported.quiet {r r' : Raft} {m : Message} {calls : List (Raft × Nat)} (h : Reported r m r' calls) :
    Quiet r r' := by
  have hprs : ∀ prs, Quiet r { r with prs := prs } := fun _ => ⟨⟨rfl,rfl,rfl,rfl,rfl,Nat.le_refl _⟩,rfl,rfl⟩
  cases h with
  | idle => exact .refl r
  | refused | installed => exact (hprs _).trans (sendAppend_same _ _).quiet
  | acked => exact hprs _
  | held => exact (hprs _).trans (maybeCommit_quiet _)
  | committed _ _ _ _ _ hc =>
    subst hc
    exact ((hprs _).trans (maybeCommit_quiet _)).trans (bcastAppend_same _).quiet
  | beat => exact (r.handleHeartbeatResp_same m).quiet

private theorem handleVoteRequest_effect (m : Message) : Quiet r (r.handleVoteRequest m) := by
  unfold handleVoteRequest
  split
  · exact (r.panic_same _).quiet
  simp only
  split
  · exact (r.send_same _).quiet
  split
  · have hq : Quiet r { r with vote := m.sender, electionElapsed := 0 } :=
      ⟨⟨rfl,rfl,rfl,rfl,rfl,Nat.le_refl _⟩,rfl,rfl⟩
    exact hq.trans (send_same _ _).quiet
  · exact (r.send_same _).quiet

section ways
variable {r} {r' r₁ : Raft} {m : Message} {calls : List (Raft × Nat)}

private theorem Heard.effect (h : Heard r m r') (hterm : m.term = r.term) : LogEffect r (some m) r' := by
  cases h with
  | append ht => exact r.handleAppend_effect ht hterm
  | heartbeat => exact .quiet (r.handleHeartbeat_effect m)
  | snapshot ht => exact r.handleSnapshot_effect ht

theorem Backs.quiet (h : Backs r m r₁) : Quiet r r₁ := by
  cases h with
  | follower => exact ⟨⟨rfl,rfl,rfl,rfl,rfl,Nat.le_refl _⟩,rfl,rfl⟩
  | candidate => exact r.becomeFollower_quiet _ _

private theorem Handled.effect (h : Handled r m r' calls)
    (hterm : m.type ≠ .preVote → m.type ≠ .preVoteResp → m.term = r.term) : LogEffect r (some m) r' := by
  cases h with
  | idle => exact .quiet (Quiet.refl r)
  | request => exact .quiet (r.handleVoteRequest_effect m)
  | heard r₁ _ hb h =>
    have heq : m.term = r.term := by
      cases h with
      | append ht | heartbeat ht | snapshot ht => exact hterm (by rw [ht]; simp) (by rw [ht]; simp)
    have ht := (hb.follows heq).1
    exact .after hb.quiet hb.kept.2.1 (.down hb.state ht.ge (by simp)) (h.effect (heq.trans ht.symm))
  | ballot hs => exact (r.handleVoteResp_balloted m).effect (hs.imp (·.1) (·.1))
  | report _ _ _ h => exact .quiet h.quiet

private theorem Stepped.effect (h : Stepped r m r' calls) (hm : m.type = .propose ∨ m.type = .readIndex ∨ 0 < m.term) :
    LogEffect r (some m) r' := by
  cases h with
  | ignored => exact .quiet (Quiet.refl r)
  | proposed _ ht hs hne hr =>
    subst hr
    obtain ⟨hk,h1,h2,h3,_,h5,h6⟩ := r.appendEntry_effect hs (m.entries.map fun e => { e with type := .normal })
    exact LogEffect.same (.lead _ hk h1 (by simpa using hne) (by rw [h2]; exact h5) h6
      (.led hs h2 h3 ⟨m,rfl,ht,rfl⟩)) (bcastAppend_same _)
  | read => exact .quiet (r.stepReadIndex_same m).quiet
  | sticky => exact .quiet (r.rejectSticky_same m).quiet
  | stale => exact .quiet (r.rejectStale_same m).quiet
  | role _ _ hloc hp h => exact h.effect (hp.term hloc hm).2
  | adopts _ _ _ hgt _ _ h =>
    exact .after (r.becomeFollower_quiet _ _) rfl (.down rfl (Nat.le_of_lt hgt) (by simp)) (h.effect fun _ _ => rfl)

end ways

/-- Effect of `Step`; a peer message carries a positive term. -/
theorem step_effect {m : Message} (hm : m.type = .propose ∨ m.type = .readIndex ∨ 0 < m.term) :
    LogEffect r (some m) (r.step m).1 :=
  (r.step_stepped m).effect hm

end Raft
end Parallax
