import Parallax.Cluster.Roles

/-! Campaigns, ballots and their counting. -/
namespace Parallax.Cluster
open Consensus Consensus.History
variable {S : Setup} {H : Hist} {n : Nat} {r : Raft}

theorem At.solicit (h : At S H n r) {ty : MessageType} {voteTerm li lt : Nat} (ids : List Nat)
    (hm : ∀ id, id ≠ n → MsgOK S H
      { type := ty, sender := n, dest := id, term := voteTerm, logIndex := li, logTerm := lt })
    (hle : ty ≠ .preVote → voteTerm ≤ r.term) (hpre : voteTerm ≤ r.term + 1) :
    Reaches S H n r (ids.foldl (fun r id => if id = r.id then r else
      r.send { type := ty, dest := id, term := voteTerm, logIndex := li, logTerm := lt }) r) := by
  suffices hfold : ∀ r', r' = ids.foldl (fun r id => if id = r.id then r else
      r.send { type := ty, dest := id, term := voteTerm, logIndex := li, logTerm := lt }) r →
      At S H n r' ∧ r'.term = r.term by
    obtain ⟨ha,ht⟩ := hfold _ rfl
    exact ⟨H,Frame.refl n H,ha,ht.symm.le,fun hh => ht ▸ hh⟩
  rintro _ rfl
  refine List.foldlRecOn ids _ (motive := fun r' => At S H n r' ∧ r'.term = r.term) ⟨h,rfl⟩ ?_
  rintro r' ⟨ha,ht⟩ id _
  split
  · exact ⟨ha,ht⟩
  rename_i hne
  rw [ha.ok.id] at hne
  have hst := r'.stampMessage_pos
    (m := { type := ty, dest := id, term := voteTerm, logIndex := li, logTerm := lt }) (hm id hne).term.ne'
  rw [ha.ok.id] at hst
  refine ⟨⟨ha.mem,ha.good,ha.ok.send ?_ ?_ ?_⟩,ht⟩
  · rw [hst]
    exact hm id hne
  · rw [hst,ht]
    exact fun h1 _ => hle h1
  · rw [hst,ht]
    exact fun _ => hpre

theorem At.solicitVotesWith (h : At S H n r) {ty : MessageType} {voteTerm : Nat} {won : Raft → Raft}
    (hm : ∀ id, id ≠ n → MsgOK S H
      { type := ty, sender := n, dest := id, term := voteTerm, logIndex := (H.log n).length,
        logTerm := termAt (H.log n) (H.log n).length })
    (hle : ty ≠ .preVote → voteTerm ≤ r.term) (hpre : voteTerm ≤ r.term + 1)
    (hown : r.state = .candidate → ∃ b, H.ballot n r.term = some b ∧ b.cand = n)
    (hwon : ∀ r', At S H n r' → r'.state = r.state → r'.term = r.term → r'.tallyGranted ≥ r'.quorum →
      Reaches S H n r (won r')) : Reaches S H n r (r.solicitVotesWith ty voteTerm won) := by
  unfold Raft.solicitVotesWith
  have hrec : At S H n (r.recordVote r.id true) :=
    h.recordVote fun hs _ => ⟨h.ok.id ▸ h.mem,by rw [h.ok.id]; exact hown hs⟩
  have hlog : (r.recordVote r.id true).raftLog = r.raftLog := by
    unfold Raft.recordVote
    split <;> rfl
  have hterm : (r.recordVote r.id true).term = r.term := by
    unfold Raft.recordVote
    split <;> rfl
  have hstate : (r.recordVote r.id true).state = r.state := by
    unfold Raft.recordVote
    split <;> rfl
  simp only
  split
  · rename_i hq
    exact hwon _ hrec hstate hterm hq
  rw [hlog,h.ok.log.repr.lastTerm_eq]
  rw [h.ok.log.repr.lastIndex]
  refine Reaches.then (Reaches.of_ok h hrec.ok hterm.symm) fun H' hf hr => ?_
  exact hr.solicit _ (fun id hne => (hm id hne).ext hf.ext) (fun h1 => hterm.symm ▸ hle h1)
    (hterm.symm ▸ hpre)

private theorem vote_content (h : At S H n r) (hs : r.state = .candidate) (id : Nat) (hne : id ≠ n) : MsgOK S H
    { type := .vote, sender := n, dest := id, term := r.term, logIndex := (H.log n).length,
      logTerm := termAt (H.log n) (H.log n).length } :=
  ⟨h.mem,hne,(h.ok.stands hs).pos,_,(h.ok.stands hs).cand,rfl,(lastTerm_eq_termAt _).symm⟩

theorem At.solicitVotesWith_vote (h : At S H n r) (hs : r.state = .candidate) :
    Reaches S H n r (r.solicitVotesWith .vote r.term Raft.becomeLeader) := by
  refine h.solicitVotesWith (vote_content h hs) (fun _ => le_rfl) (Nat.le_succ _) (fun hs => ?_) ?_
  · obtain ⟨b,hb,hc,_⟩ := (h.ok.stands hs).own
    exact ⟨b,hb,hc⟩
  · intro r' hr' hst hterm hq
    exact (hr'.becomeLeader (hst.trans hs) hq).reaches hterm.symm.le

theorem At.solicitVotes_vote (h : At S H n r) (hs : r.state = .candidate) :
    Reaches S H n r (r.solicitVotes .vote r.term) := by
  have heq : r.solicitVotes .vote r.term = r.solicitVotesWith .vote r.term Raft.becomeLeader := rfl
  rw [heq]
  exact h.solicitVotesWith_vote hs

theorem At.campaign_vote (h : At S H n r) (hs : r.state ≠ .leader) :
    Reaches S H n r (r.becomeCandidate.solicitVotes .vote r.becomeCandidate.term) := by
  obtain ⟨hr,_,hst⟩ := h.becomeCandidate hs
  exact hr.then fun H' _ h' => h'.solicitVotes_vote hst

theorem At.solicitVotes_preVote (h : At S H n r) (hs : r.state = .preCandidate) :
    Reaches S H n r (r.solicitVotes .preVote (r.term + 1)) := by
  unfold Raft.solicitVotes
  refine h.solicitVotesWith (fun id hne => ⟨h.mem,hne,Nat.succ_pos _,trivial⟩) (fun hne => absurd rfl hne) le_rfl
    (fun hc => absurd (hs ▸ hc) (by simp)) ?_
  intro r' hr' hst hterm _
  rw [if_pos rfl]
  have := (Reaches.of_ok h hr'.ok hterm.symm).then fun H' _ h' =>
    h'.campaign_vote (by rw [hst,hs]; simp)
  exact this

theorem At.campaign (h : At S H n r) (hs : r.state ≠ .leader) : Reaches S H n r r.campaign := by
  unfold Raft.campaign
  split
  · have hp := h.becomePreCandidate hs
    have hpre : r.becomePreCandidate.state = .preCandidate := by
      simp [Raft.becomePreCandidate,hs]
    have hterm : r.becomePreCandidate.term = r.term := by
      simp [Raft.becomePreCandidate,hs,Raft.resetRandomizedElectionTimeout]
    exact (Reaches.of_ok h hp.ok hterm.symm).then fun H' _ h' => h'.solicitVotes_preVote hpre
  · exact h.campaign_vote hs

theorem At.tickElection (h : At S H n r) (hs : r.state ≠ .leader) : Reaches S H n r r.tickElection := by
  unfold Raft.tickElection
  simp only
  split
  · exact At.campaign (r := { r with electionElapsed := 0 }) ⟨h.mem,h.good,{ h.ok with }⟩ hs
  · exact Reaches.of_ok h { h.ok with } rfl

/-- A ballot (or a pre-vote answer) is counted. -/
theorem At.handleVoteResp (h : At S H n r) {m : Message}
    (hs : r.state = .preCandidate ∨ r.state = .candidate)
    (hm : r.state = .candidate → m.reject = false →
      m.sender ∈ S.peers ∧ ∃ b, H.ballot m.sender r.term = some b ∧ b.cand = n) :
    Reaches S H n r (r.handleVoteResp m) := by
  unfold Raft.handleVoteResp
  have hrec : At S H n (r.recordVote m.sender (!m.reject)) :=
    h.recordVote fun hc hg => hm hc (by simpa using hg)
  have hterm : (r.recordVote m.sender (!m.reject)).term = r.term := by
    unfold Raft.recordVote
    split <;> rfl
  have hstate : (r.recordVote m.sender (!m.reject)).state = r.state := by
    unfold Raft.recordVote
    split <;> rfl
  refine (Reaches.of_ok h hrec.ok hterm.symm).then fun H' _ h' => ?_
  clear hrec
  generalize r.recordVote m.sender (!m.reject) = r' at *
  simp only
  split
  · rename_i hq
    split
    · rename_i hp
      exact h'.campaign_vote (by rw [hp]; simp)
    rename_i hp
    have hc : r'.state = .candidate := by
      rw [hstate] at hp ⊢
      exact hs.resolve_left hp
    exact ((h'.becomeLeader hc hq).map fun _ hl => hl.bcastAppend).reaches le_rfl
  split
  · exact Reaches.of_ok h' (h'.ok.becomeFollower _ _ le_rfl fun hne => absurd rfl hne) rfl
  · exact Reaches.refl h'

theorem At.ballot_eq_none (h : At S H n r) (hv : r.vote = None) : H.ballot n r.term = none := by
  cases hb : H.ballot n r.term with
  | none => rfl
  | some b =>
    rcases h.ok.durable.ballot _ b hb with hlt | ⟨_,hc⟩
    · omega
    · obtain ⟨l,hl,_⟩ := h.good.inv.ballot_cand n _ b hb
      exact absurd (hc.trans hv) (S.ne_zero (h.good.member _ _ _ hl))

theorem LogOK.upToDate {t lastIndex term : Nat} {l : RaftLog} (h : LogOK S H n t l)
    (hup : l.isUpToDate (termAt (H.log n) (H.log n).length) lastIndex term = true) :
    UpToDate Entry.term lastIndex term (H.log n) := by
  unfold RaftLog.isUpToDate at hup
  rw [h.repr.lastIndex] at hup
  simp only [Bool.or_eq_true,Bool.and_eq_true,beq_iff_eq,decide_eq_true_eq] at hup
  unfold UpToDate
  rw [lastTerm_eq_termAt (H.log n)]
  exact hup

theorem Durable.voted {t v : Nat} (h : Durable S H n t v) (hb : H.ballot n t = none) (c : Nat) :
    Durable S (H.vote n t c) n t c := by
  have hx : Ext H (H.vote n t c) := Ext.vote hb
  refine ⟨fun t' b hb' => ?_,fun _ => ⟨_,vote_ballot_self _ _ _,rfl⟩,h.ack,fun t' l hl => ?_,h.solo⟩
  · rw [vote_ballot] at hb'
    split_ifs at hb' with htn
    · obtain rfl := Option.some.inj hb'
      exact .inr ⟨htn.2,rfl⟩
    rcases h.ballot t' b hb' with hlt | ⟨rfl,_⟩
    · exact .inl hlt
    · exact absurd ⟨rfl,rfl⟩ htn
  · obtain ⟨hle,b,hbn,hc⟩ := h.cand t' l hl
    exact ⟨hle,b,hx.ballot _ _ _ hbn,hc⟩

theorem Ok.voted (h : Ok S H n r) (hb : H.ballot n r.term = none) (c : Nat) :
    Ok S (H.vote n r.term c) n { r with vote := c, electionElapsed := 0 } := by
  have hx : Ext H (H.vote n r.term c) := Ext.vote hb
  refine
    { id := h.id, peers := h.peers, panicked := h.panicked, log := h.log.ext hx rfl
      durable := h.durable.voted hb c
      leads := fun hs => { h.leads hs with }
      com := h.com
      stands := fun hs => ?_
      prs := h.prs, reads := h.reads, lead := h.lead
      msgs := fun m hm => ⟨(h.msgs m hm).1.ext hx,(h.msgs m hm).2⟩
      msgs_term := h.msgs_term, probes := h.probes }
  -- A candidate has its own ballot in this term.
  obtain ⟨b,hbn,_⟩ := (h.stands hs).own
  rw [hb] at hbn
  cases hbn

theorem At.handleVoteRequest (h : At S H n r) {m : Message} (hm : MsgOK S H m) (hd : m.sender ≠ n)
    (ht : m.type = .preVote ∨ (m.type = .vote ∧ m.term = r.term)) :
    Reaches S H n r (r.handleVoteRequest m) := by
  have ho := h.ok
  unfold Raft.handleVoteRequest
  rw [ho.log.repr.lastTerm_eq]
  simp only
  rcases ht with hpre | ⟨hvote,hterm⟩
  · rw [if_pos hpre]
    refine Reaches.of_ok h (ho.send ?_ ?_ ?_) rfl <;>
      rw [Raft.stampMessage_pos _ (by exact hm.term.ne')]
    · exact ⟨by rw [ho.id]; exact h.mem,by rw [ho.id]; exact hd,hm.term,trivial⟩
    · exact fun _ hne => absurd rfl hne
    · exact fun hp => by cases hp
  rw [if_neg (by rw [hvote]; simp)]
  have hpos : 0 < r.term := hterm ▸ hm.term
  split
  swap
  · exact Reaches.of_ok h (ho.send_stamped h.mem hpos hd rfl (by simp [Raft.Stamped]) (fun hr => by cases hr)) rfl
  rename_i hgrant
  simp only [Bool.and_eq_true,Bool.or_eq_true,beq_iff_eq,decide_eq_true_eq] at hgrant
  obtain ⟨hcan,hup⟩ := hgrant
  by_cases hold : r.vote = m.sender
  · -- The vote is already recorded; the answer repeats it.
    have hsame : { r with vote := m.sender, electionElapsed := 0 } = { r with electionElapsed := 0 } := by
      rw [← hold]
    have ho' : Ok S H n { r with electionElapsed := 0 } := { ho with }
    rw [hsame]
    refine Reaches.of_ok h (ho'.send_stamped h.mem hpos hd rfl (by simp [Raft.Stamped]) fun _ => ?_) rfl
    obtain ⟨b,hb,hc⟩ := ho.durable.vote (hold ▸ S.ne_zero hm.sender)
    exact ⟨b,hb,hc.trans hold⟩
  have hnone : r.vote = None := by
    rcases hcan with (hv | ⟨hv,_⟩) | hgt
    · exact absurd hv hold
    · exact hv
    · omega
  have hcont := hm.content
  simp only [Content,hvote] at hcont
  obtain ⟨l,hl,hli,hlt⟩ := hcont
  rw [hterm] at hl
  have hb := h.ballot_eq_none hnone
  have hu := ho.log.upToDate hup
  rw [hli,hlt] at hu
  refine ⟨H.vote n r.term m.sender,Frame.vote hb,⟨h.mem,⟨?_,h.good.indexed,h.good.member⟩,?_⟩,le_rfl,
    fun hh => hh⟩
  · exact h.good.inv.vote hb (fun s hs => ho.durable.no_ballot hs) hl hu
  · exact (ho.voted hb m.sender).send_stamped h.mem hpos hd rfl (by simp [Raft.Stamped])
      fun _ => ⟨_,vote_ballot_self _ _ _,rfl⟩

end Parallax.Cluster
