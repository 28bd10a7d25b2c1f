import Parallax.Raft.Step

/-! The ways of a message through `Step` and of a tick: once for all what an input comes to, with the calls of
`sendAppend` it makes. What the other modules say of an input is read off these cases. -/
namespace Parallax
namespace Raft

/-- The loop of `bcastAppend`. -/
def bcastCalls (r : Raft) : List Nat → List (Raft × Nat)
  | [] => []
  | id :: ids => if id = r.id then r.bcastCalls ids else (r,id) :: (r.sendAppend id).bcastCalls ids

def handleAppendRespCalls (r : Raft) (m : Message) : List (Raft × Nat) :=
  match r.prs.lookup m.sender with
  | none => []
  | some pr =>
    if m.reject then
      match pr.maybeDecrTo m.logIndex (r.decrHint m) with
      | (pr, true) => [({ r with prs := r.prs.insert m.sender pr },m.sender)]
      | (_, false) => []
    else
      match pr.maybeUpdate m.logIndex with
      | (pr, true) =>
        match { r with prs := r.prs.insert m.sender pr }.maybeCommit with
        | (r, true) => r.bcastCalls r.peers
        | (_, false) => []
      | (_, false) => []

def catchUpCalls (r : Raft) (id : Nat) : List (Raft × Nat) :=
  match r.prs.lookup id with
  | none => []
  | some pr => if pr.matched < r.raftLog.lastIndex then [(r,id)] else []

def stepLeaderCalls (r : Raft) (m : Message) : List (Raft × Nat) :=
  match m.type with
  | .appendResp => r.handleAppendRespCalls m
  | .heartbeatResp => r.catchUpCalls m.sender
  | .installSnapshotResp =>
    match r.prs.lookup m.sender with
    | none => []
    | some pr => [({ r with prs := r.prs.insert m.sender (pr.maybeUpdate m.logIndex).1 },m.sender)]
  | _ => []

def handleVoteRespCalls (r : Raft) (m : Message) : List (Raft × Nat) :=
  let r := r.recordVote m.sender (!m.reject)
  if r.tallyGranted ≥ r.quorum then
    if r.state = .preCandidate then [] else r.becomeLeader.bcastCalls r.becomeLeader.peers
  else []

def stepCandidateCalls (r : Raft) (m : Message) : List (Raft × Nat) :=
  let myVoteResp := if r.state = .preCandidate then MessageType.preVoteResp else .voteResp
  match m.type with
  | .append | .heartbeat | .installSnapshot => []
  | t => if t = myVoteResp then r.handleVoteRespCalls m else []

def stepRoleCalls (r : Raft) (m : Message) : List (Raft × Nat) :=
  match m.type with
  | .preVote | .vote => []
  | _ =>
    match r.state with
    | .follower => []
    | .preCandidate | .candidate => r.stepCandidateCalls m
    | .leader => r.stepLeaderCalls m

def stepProposeCalls (r : Raft) (m : Message) : List (Raft × Nat) :=
  if r.state ≠ .leader then []
  else if m.entries.length = 0 then []
  else
    let r := r.appendEntry (m.entries.map fun e => { e with type := .normal })
    r.bcastCalls r.peers

/-- A tick sends no entries: a campaign that wins at once has no followers. -/
def stepCalls (r : Raft) (m : Message) : List (Raft × Nat) :=
  match m.type with
  | .propose => r.stepProposeCalls m
  | .readIndex => []
  | _ =>
    if r.sticky m then []
    else if m.term = 0 then r.stepRoleCalls m
    else if m.term > r.term then (r.adoptTerm m).stepRoleCalls m
    else if m.term < r.term then []
    else r.stepRoleCalls m

/-- `r'` is `r` after it asked the others for votes, or panicked instead. -/
def Solicits (r r' : Raft) : Prop :=
  ∃ ms p, r' = { r with msgs := r.msgs ++ ms, panicked := p } ∧ ∀ m ∈ ms, m.type = .vote ∨ m.type = .preVote

/-- `r'` stands for the term after that of `r`: with its own vote it has won, or it asks for more. -/
inductive Stands (r : Raft) : Raft → Prop
  | asks (r₁ r' : Raft) (hr : r₁ = r.becomeCandidate.recordVote r.becomeCandidate.id true) (h : Solicits r₁ r') :
      Stands r r'
  | wins (r₁ : Raft) (hr : r₁ = r.becomeCandidate.recordVote r.becomeCandidate.id true) : Stands r r₁.becomeLeader

/-- The ways through `campaign`; a lone node wins its own probe at once. -/
inductive Campaigned (r : Raft) : Raft → Prop
  | probes (r₁ r' : Raft) (hr : r₁ = r.becomePreCandidate.recordVote r.becomePreCandidate.id true)
      (hq : r₁.tallyGranted < r₁.quorum) (h : Solicits r₁ r') : Campaigned r r'
  | passes (r₁ r' : Raft) (hr : r₁ = r.becomePreCandidate.recordVote r.becomePreCandidate.id true)
      (hq : r₁.quorum ≤ r₁.tallyGranted) (h : Stands r₁ r') : Campaigned r r'
  | stands (r' : Raft) (hp : r.cfg.preVote = false) (h : Stands r r') : Campaigned r r'

/-- The ways through `tick`. -/
inductive Ticked (r : Raft) : Raft → Prop
  | beats (hs : r.state = .leader) : Ticked r { r with heartbeatElapsed := 0 }.bcastHeartbeat
  | waits (heartbeat election : Nat) :
      Ticked r { r with heartbeatElapsed := heartbeat, electionElapsed := election }
  | campaigns (r' : Raft) (hs : r.state ≠ .leader) (h : Campaigned r r') : Ticked r r'

/-- The ways through `handleVoteResp`, with the ballot counted in `r₁`. -/
inductive Balloted (r r₁ : Raft) : Raft → List (Raft × Nat) → Prop
  | waits (hq : r₁.tallyGranted < r₁.quorum) : Balloted r r₁ r₁ []
  | retires : Balloted r r₁ (r₁.becomeFollower r₁.term None) []
  | stands (r' : Raft) (hs : r.state = .preCandidate) (hq : r₁.quorum ≤ r₁.tallyGranted) (h : Stands r₁ r') :
      Balloted r r₁ r' []
  | wins (hs : r.state ≠ .preCandidate) :
      Balloted r r₁ r₁.becomeLeader.bcastAppend (r₁.becomeLeader.bcastCalls r₁.becomeLeader.peers)

/-- `r₁` is `r` with the sender of `m` as its leader, for whom a candidate steps down. -/
inductive Backs (r : Raft) (m : Message) : Raft → Prop
  | follower (hs : r.state = .follower) : Backs r m { r with electionElapsed := 0, lead := m.sender }
  | candidate (hs : r.state = .preCandidate ∨ r.state = .candidate) : Backs r m (r.becomeFollower m.term m.sender)

/-- What a follower does with a message of its leader. -/
inductive Heard (r : Raft) (m : Message) : Raft → Prop
  | append (ht : m.type = .append) : Heard r m (r.handleAppend m)
  | heartbeat (ht : m.type = .heartbeat) : Heard r m (r.handleHeartbeat m)
  | snapshot (ht : m.type = .installSnapshot) : Heard r m (r.handleSnapshot m)

/-- The ways through `stepLeader`. -/
inductive Reported (r : Raft) (m : Message) : Raft → List (Raft × Nat) → Prop
  | idle : Reported r m r []
  | refused (pr pr' : Progress) (ht : m.type = .appendResp) (hrej : m.reject = true)
      (hpr : r.prs.lookup m.sender = some pr) (hd : pr.maybeDecrTo m.logIndex (r.decrHint m) = (pr', true)) :
      Reported r m ({ r with prs := r.prs.insert m.sender pr' }.sendAppend m.sender)
        [({ r with prs := r.prs.insert m.sender pr' },m.sender)]
  | acked (pr : Progress) (ht : m.type = .appendResp) (hrej : m.reject = false)
      (hpr : r.prs.lookup m.sender = some pr) :
      Reported r m { r with prs := r.prs.insert m.sender (pr.maybeUpdate m.logIndex).1 } []
  | held (pr : Progress) (ht : m.type = .appendResp) (hrej : m.reject = false)
      (hpr : r.prs.lookup m.sender = some pr) :
      Reported r m { r with prs := r.prs.insert m.sender (pr.maybeUpdate m.logIndex).1 }.maybeCommit.1 []
  | committed (pr : Progress) (r₁ : Raft) (ht : m.type = .appendResp) (hrej : m.reject = false)
      (hpr : r.prs.lookup m.sender = some pr)
      (hc : r₁ = { r with prs := r.prs.insert m.sender (pr.maybeUpdate m.logIndex).1 }.maybeCommit.1) :
      Reported r m r₁.bcastAppend (r₁.bcastCalls r₁.peers)
  | beat (ht : m.type = .heartbeatResp) : Reported r m (r.handleHeartbeatResp m) (r.catchUpCalls m.sender)
  | installed (pr : Progress) (ht : m.type = .installSnapshotResp) (hpr : r.prs.lookup m.sender = some pr) :
      Reported r m ({ r with prs := r.prs.insert m.sender (pr.maybeUpdate m.logIndex).1 }.sendAppend m.sender)
        [({ r with prs := r.prs.insert m.sender (pr.maybeUpdate m.logIndex).1 },m.sender)]

/-- The ways through `stepRole`. -/
inductive Handled (r : Raft) (m : Message) : Raft → List (Raft × Nat) → Prop
  | idle : Handled r m r []
  | request (ht : m.type = .preVote ∨ m.type = .vote) : Handled r m (r.handleVoteRequest m) []
  | heard (r₁ r' : Raft) (hb : Backs r m r₁) (h : Heard r₁ m r') : Handled r m r' []
  | ballot (hs : r.state = .preCandidate ∧ m.type = .preVoteResp ∨ r.state = .candidate ∧ m.type = .voteResp) :
      Handled r m (r.handleVoteResp m) (r.handleVoteRespCalls m)
  | report (r' : Raft) (calls : List (Raft × Nat)) (hs : r.state = .leader) (h : Reported r m r' calls) :
      Handled r m r' calls

/-- The term rules let `m` through to the role of `r` as it is. -/
def Passes (r : Raft) (m : Message) : Prop :=
  m.term = 0 ∨ m.term = r.term ∨ r.term < m.term ∧ (m.type = .preVote ∨ m.type = .preVoteResp ∧ m.reject = false)

/-- The ways through `step`. -/
inductive Stepped (r : Raft) (m : Message) : Raft → List (Raft × Nat) → Prop
  | ignored (ht : m.type = .propose) : Stepped r m r []
  | proposed (r₁ : Raft) (ht : m.type = .propose) (hs : r.state = .leader) (hne : m.entries ≠ [])
      (hr : r₁ = r.appendEntry (m.entries.map fun e => { e with type := .normal })) :
      Stepped r m r₁.bcastAppend (r₁.bcastCalls r₁.peers)
  | read (ht : m.type = .readIndex) : Stepped r m (r.stepReadIndex m).1 []
  | sticky (hs : r.sticky m = true) : Stepped r m (r.rejectSticky m) []
  | stale (hlt : m.term < r.term) : Stepped r m (r.rejectStale m) []
  | role (r' : Raft) (calls : List (Raft × Nat)) (hloc : m.type ≠ .propose ∧ m.type ≠ .readIndex)
      (hterm : Passes r m) (h : Handled r m r' calls) : Stepped r m r' calls
  | adopts (r' : Raft) (calls : List (Raft × Nat)) (hloc : m.type ≠ .propose ∧ m.type ≠ .readIndex)
      (hgt : r.term < m.term) (hp : m.type ≠ .preVote) (hg : ¬ (m.type = .preVoteResp ∧ m.reject = false))
      (h : Handled (r.becomeFollower m.term (if m.type = .vote then None else m.sender)) m r' calls) :
      Stepped r m r' calls

variable (r : Raft) (m : Message)

private theorem foldl_solicits {t : MessageType} (ht : t = .vote ∨ t = .preVote) (voteTerm li lt : Nat)
    (ids : List Nat) : ∀ r : Raft, Solicits r (ids.foldl (fun r id => if id = r.id then r else
      r.send { type := t, dest := id, term := voteTerm, logIndex := li, logTerm := lt }) r) := by
  induction ids with
  | nil => exact fun r => ⟨[],r.panicked,by simp,by simp⟩
  | cons id ids ih =>
    intro r
    rw [List.foldl_cons]
    split
    · exact ih r
    obtain ⟨ms,p,h,hm⟩ := ih (r.send { type := t, dest := id, term := voteTerm, logIndex := li, logTerm := lt })
    refine ⟨_ :: ms,p,h.trans (by rw [send,List.append_assoc]; rfl),fun m hm' => ?_⟩
    rcases List.mem_cons.mp hm' with rfl | hm'
    · unfold stampMessage
      rcases ht with rfl | rfl <;> dsimp only <;> split_ifs <;> simp
    · exact hm m hm'

theorem solicitVotesWith_cases {t : MessageType} (ht : t = .vote ∨ t = .preVote) (voteTerm : Nat)
    (won : Raft → Raft) (r₁ : Raft) (hr : r₁ = r.recordVote r.id true) :
    r₁.quorum ≤ r₁.tallyGranted ∧ r.solicitVotesWith t voteTerm won = won r₁ ∨
    r₁.tallyGranted < r₁.quorum ∧ Solicits r₁ (r.solicitVotesWith t voteTerm won) := by
  subst hr
  unfold solicitVotesWith
  dsimp only
  split
  · exact .inl ⟨by assumption,rfl⟩
  refine .inr ⟨not_le.mp (by assumption),?_⟩
  split
  · exact ⟨[],some .lastTerm,by rw [List.append_nil]; rfl,by simp⟩
  · exact foldl_solicits ht _ _ _ _ _

private theorem becomeCandidate_stands :
    Stands r (r.becomeCandidate.solicitVotesWith .vote r.becomeCandidate.term becomeLeader) := by
  rcases solicitVotesWith_cases _ (.inl rfl) _ becomeLeader _ rfl with ⟨_,h⟩ | ⟨_,h⟩
  · rw [h]
    exact .wins _ rfl
  · exact .asks _ _ rfl h

private theorem campaign_campaigned : Campaigned r r.campaign := by
  unfold campaign
  split
  · rcases solicitVotesWith_cases r.becomePreCandidate (.inr rfl) (r.becomePreCandidate.term + 1) _ _ rfl with
      ⟨hq,h⟩ | ⟨hq,h⟩
    · rw [solicitVotes,h,if_pos rfl]
      exact .passes _ _ rfl hq (becomeCandidate_stands _)
    · exact .probes _ _ rfl hq h
  · exact .stands _ (by simp_all) r.becomeCandidate_stands

theorem tick_ticked : Ticked r r.tick := by
  unfold tick
  split
  · unfold tickHeartbeat
    dsimp only
    split
    · exact .beats (by assumption)
    · exact .waits _ _
  unfold tickElection
  dsimp only
  split
  · have heq : { r with electionElapsed := 0 }.campaign = r.campaign := by
      unfold campaign becomePreCandidate becomeCandidate
      split_ifs <;> rfl
    refine .campaigns _ (by assumption) ?_
    exact heq ▸ r.campaign_campaigned
  · exact .waits _ _

theorem handleVoteResp_balloted :
    Balloted r (r.recordVote m.sender (!m.reject)) (r.handleVoteResp m) (r.handleVoteRespCalls m) := by
  have hs : (r.recordVote m.sender (!m.reject)).state = r.state := by
    unfold recordVote
    split <;> rfl
  unfold handleVoteResp handleVoteRespCalls
  dsimp only
  by_cases hq : (r.recordVote m.sender (!m.reject)).quorum ≤ (r.recordVote m.sender (!m.reject)).tallyGranted
  · rw [if_pos hq,if_pos hq,hs]
    split
    · exact .stands _ (by assumption) hq (becomeCandidate_stands _)
    · exact .wins (by assumption)
  rw [if_neg hq,if_neg hq]
  split
  · exact .retires
  · exact .waits (not_le.mp hq)

private theorem handleAppendResp_reported (ht : m.type = .appendResp) :
    Reported r m (r.handleAppendResp m) (r.handleAppendRespCalls m) := by
  unfold handleAppendResp handleAppendRespCalls
  cases hpr : r.prs.lookup m.sender with
  | none => exact .idle
  | some pr =>
    dsimp only
    cases hrej : m.reject with
    | true =>
      cases hd : pr.maybeDecrTo m.logIndex (r.decrHint m) with
      | mk pr' b =>
        cases b with
        | false => exact .idle
        | true => exact .refused pr pr' ht hrej hpr hd
    | false =>
      have hacked := Reported.acked pr ht hrej hpr
      have hheld := Reported.held pr ht hrej hpr
      have hcommitted := Reported.committed pr _ ht hrej hpr rfl
      cases hu : pr.maybeUpdate m.logIndex with
      | mk pr' b =>
        rw [hu] at hacked hheld hcommitted
        cases b with
        | false => exact hacked
        | true =>
          dsimp only [Bool.false_eq_true,if_false] at hheld hcommitted ⊢
          cases hc : maybeCommit { r with prs := r.prs.insert m.sender pr' } with
          | mk r' b =>
            rw [hc] at hheld hcommitted
            cases b with
            | false => exact hheld
            | true => exact hcommitted

private theorem stepLeader_reported : Reported r m (r.stepLeader m) (r.stepLeaderCalls m) := by
  unfold stepLeader stepLeaderCalls
  cases ht : m.type <;> try exact .idle
  case appendResp => exact r.handleAppendResp_reported m ht
  case heartbeatResp => exact .beat ht
  case installSnapshotResp =>
    cases hpr : r.prs.lookup m.sender with
    | none => exact .idle
    | some pr => exact .installed pr ht hpr

private theorem stepFollower_handled (hs : r.state = .follower) : Handled r m (r.stepFollower m) [] := by
  unfold stepFollower
  split
  · exact .heard _ _ (.follower hs) (.append (by assumption))
  · exact .heard _ _ (.follower hs) (.heartbeat (by assumption))
  · exact .heard _ _ (.follower hs) (.snapshot (by assumption))
  · exact .idle

private theorem stepCandidate_handled (hs : r.state = .preCandidate ∨ r.state = .candidate) :
    Handled r m (r.stepCandidate m) (r.stepCandidateCalls m) := by
  have hballot : m.type = (if r.state = .preCandidate then MessageType.preVoteResp else .voteResp) →
      Handled r m (r.handleVoteResp m) (r.handleVoteRespCalls m) := by
    intro ht
    refine .ballot ?_
    rcases hs with hs | hs <;> simp_all
  unfold stepCandidate stepCandidateCalls
  dsimp only
  generalize (if r.state = .preCandidate then MessageType.preVoteResp else .voteResp) = mine at hballot ⊢
  cases ht : m.type
  case append => exact .heard _ _ (.candidate hs) (.append ht)
  case heartbeat => exact .heard _ _ (.candidate hs) (.heartbeat ht)
  case installSnapshot => exact .heard _ _ (.candidate hs) (.snapshot ht)
  all_goals
    dsimp only
    split
    · exact hballot (ht.trans (by assumption))
    · exact .idle

private theorem stepRole_handled : Handled r m (r.stepRole m) (r.stepRoleCalls m) := by
  unfold stepRole stepRoleCalls
  cases ht : m.type
  case preVote => exact .request (.inl ht)
  case vote => exact .request (.inr ht)
  all_goals
    cases hs : r.state with
    | follower => exact r.stepFollower_handled m hs
    | preCandidate => exact r.stepCandidate_handled m (.inl hs)
    | candidate => exact r.stepCandidate_handled m (.inr hs)
    | leader => exact .report _ _ hs (r.stepLeader_reported m)

private theorem stepPropose_stepped (ht : m.type = .propose) :
    Stepped r m (r.stepPropose m).1 (r.stepProposeCalls m) := by
  unfold stepPropose stepProposeCalls
  split_ifs with hs hne
  · exact .ignored ht
  · exact .ignored ht
  · exact .proposed _ ht (not_not.mp hs) (fun hnil => hne (by rw [hnil]; rfl)) rfl

private theorem adoptTerm_stepped (hloc : m.type ≠ .propose ∧ m.type ≠ .readIndex) (hgt : r.term < m.term) :
    Stepped r m ((r.adoptTerm m).stepRole m) ((r.adoptTerm m).stepRoleCalls m) := by
  by_cases hp : m.type = .preVote
  · rw [adoptTerm,if_pos hp]
    exact .role _ _ hloc (.inr (.inr ⟨hgt,.inl hp⟩)) (r.stepRole_handled m)
  by_cases hg : m.type = .preVoteResp ∧ m.reject = false
  · rw [adoptTerm,if_neg hp,if_pos hg]
    exact .role _ _ hloc (.inr (.inr ⟨hgt,.inr hg⟩)) (r.stepRole_handled m)
  · rw [adoptTerm,if_neg hp,if_neg hg]
    exact .adopts _ _ hloc hgt hp hg (stepRole_handled _ m)

/-- Every call of `step` goes one of the ways. -/
theorem step_stepped : Stepped r m (r.step m).1 (r.stepCalls m) := by
  unfold step stepCalls
  cases ht : m.type
  case propose => exact r.stepPropose_stepped m ht
  case readIndex => exact .read ht
  all_goals
    have hloc : m.type ≠ .propose ∧ m.type ≠ .readIndex := by
      rw [ht]
      simp
    split_ifs with hs hz hgt hlt
    · exact .sticky hs
    · exact .role _ _ hloc (.inl hz) (r.stepRole_handled m)
    · exact r.adoptTerm_stepped m hloc hgt
    · exact .stale hlt
    · exact .role _ _ hloc (.inr (.inl (by omega))) (r.stepRole_handled m)

variable {r m}

theorem Backs.ne_leader {r₁ : Raft} (h : Backs r m r₁) : r.state ≠ .leader := by
  rcases h with hs | hs | hs <;> rw [hs] <;> simp

theorem Backs.state {r₁ : Raft} (h : Backs r m r₁) : r₁.state = .follower := by
  cases h with
  | follower hs => exact hs
  | candidate => rfl

theorem Backs.kept {r₁ : Raft} (h : Backs r m r₁) : r₁.id = r.id ∧ r₁.raftLog = r.raftLog ∧ r₁.msgs = r.msgs ∧
    r₁.readStates = r.readStates := by
  cases h <;> exact ⟨rfl,rfl,rfl,rfl⟩

theorem Backs.follows {r₁ : Raft} (h : Backs r m r₁) (hterm : m.term = r.term) :
    r₁.term = r.term ∧ r₁.lead = m.sender := by
  cases h with
  | follower => exact ⟨rfl,rfl⟩
  | candidate => exact ⟨hterm,rfl⟩

theorem Handled.led {r' : Raft} {calls : List (Raft × Nat)} (h : Handled r m r' calls) (hl : r.state = .leader) :
    r' = r.handleVoteRequest m ∨ Reported r m r' calls := by
  cases h with
  | idle => exact .inr .idle
  | request => exact .inl rfl
  | heard _ _ hb => exact absurd hl hb.ne_leader
  | ballot hs => rcases hs with ⟨hs,_⟩ | ⟨hs,_⟩ <;> rw [hs] at hl <;> cases hl
  | report _ _ _ h => exact .inr h

/-- Of a message with a term, only pre-votes and their grants pass from another term. -/
theorem Passes.term (h : Passes r m) (hloc : m.type ≠ .propose ∧ m.type ≠ .readIndex)
    (hm : m.type = .propose ∨ m.type = .readIndex ∨ 0 < m.term) :
    r.term ≤ m.term ∧ (m.type ≠ .preVote → m.type ≠ .preVoteResp → m.term = r.term) := by
  have hpos : 0 < m.term := (hm.resolve_left hloc.1).resolve_left hloc.2
  rcases h with h | h | ⟨hlt,ht⟩
  · omega
  · exact ⟨h.ge,fun _ _ => h⟩
  · exact ⟨le_of_lt hlt,fun hp hr => (ht.elim hp fun ht => hr ht.1).elim⟩

end Raft
end Parallax
