import Mathlib.Tactic.Ring
import Parallax.Raft.Ballot

/-! Terms are uint64 in the source, and the only arithmetic on them is the increment of a campaign. What a call does
depends on it only if the node becomes a candidate, so up to the last term the exact successor does the same. -/
namespace Parallax
namespace Raft

def nextTerm (term : Nat) : Nat := (term + 1) % 2 ^ 64

/-- The last term. -/
def maxTerm : Nat := 2 ^ 64 - 1

private theorem nextTerm_lt {term : Nat} (h : term < maxTerm) : nextTerm term = term + 1 := by
  unfold nextTerm maxTerm at *
  exact Nat.mod_eq_of_lt (by omega)

private theorem nextTerm_maxTerm : nextTerm maxTerm = 0 := by decide

/-- The next tick makes `r` a candidate: its election timer runs out, and it asks for no pre-votes or is its own
quorum. -/
def Campaigns (r : Raft) : Prop :=
  r.state ≠ .leader ∧ r.promotable ∧ r.randomizedElectionTimeout ≤ r.electionElapsed + 1 ∧
    (r.cfg.preVote = false ∨ r.quorum ≤ 1)

/-- With the ballot in `m` a quorum has granted. -/
def Decides (r : Raft) (m : Message) : Prop :=
  r.quorum ≤ r.tallyGranted + if m.reject = false ∧ m.sender ∉ r.votes then 1 else 0

/-- `m` makes the pre-candidate `r` a candidate: it is the deciding response to its pre-vote, and the term rules let it
through. -/
def Elevates (r : Raft) (m : Message) : Prop :=
  r.state = .preCandidate ∧ m.type = .preVoteResp ∧
    (m.term = 0 ∨ m.term = r.term ∨ (r.term < m.term ∧ m.reject = false)) ∧ Decides r m

instance (r : Raft) (m : Message) : Decidable (Termless r m) :=
  inferInstanceAs (Decidable (_ ∧ (_ ∨ _ ∨ _) ∧ (_ ∨ _) ∧ _ ≠ _))

instance (r : Raft) : Decidable (Campaigns r) := inferInstanceAs (Decidable (_ ∧ _ ∧ _ ∧ _))

instance (r : Raft) (m : Message) : Decidable (Decides r m) := inferInstanceAs (Decidable (_ ≤ _))

instance (r : Raft) (m : Message) : Decidable (Elevates r m) := inferInstanceAs (Decidable (_ ∧ _ ∧ _ ∧ _))

variable {r : Raft} {m : Message} {next next' : Nat → Nat}

private theorem decides_iff : Decides r m ↔
    (r.recordVote m.sender (!m.reject)).tallyGranted ≥ (r.recordVote m.sender (!m.reject)).quorum := by
  rw [tallyGranted_recordVote,quorum,(r.recordVote_role m.sender (!m.reject)).2.1]
  simp only [Bool.not_eq_true',ge_iff_le]
  rfl

theorem step_preVoteResp (ht : m.type = .preVoteResp) : r.step m next =
    if m.term = 0 ∨ m.term = r.term ∨ (r.term < m.term ∧ m.reject = false) then (r.stepRole m next,true)
    else if r.term < m.term then ((r.becomeFollower m.term m.sender).stepRole m next,true)
    else (r,true) := by
  have hsticky : r.sticky m = false := by simp [sticky,ht]
  unfold step
  rw [ht]
  simp only [hsticky,Bool.false_eq_true,if_false]
  by_cases h₀ : m.term = 0
  · simp [h₀]
  rw [if_neg h₀]
  by_cases hgt : m.term > r.term
  · rw [if_pos hgt]
    cases hr : m.reject with
    | false => simp [adoptTerm,ht,hr,hgt]
    | true =>
      rw [if_neg (by simp [h₀]; omega),if_pos hgt]
      simp [adoptTerm,ht,hr]
  rw [if_neg hgt]
  by_cases hlt : m.term < r.term
  · rw [if_pos hlt,if_neg (by simp [h₀]; omega),if_neg (by omega)]
    simp [rejectStale,ht]
  · rw [if_neg hlt,if_pos (by omega)]

private theorem becomeCandidate_congr (h : next r.term = next' r.term) :
    r.becomeCandidate next = r.becomeCandidate next' := by
  unfold becomeCandidate
  rw [h]

theorem solicitVotes_vote_steady (r : Raft) (voteTerm : Nat) (next : Nat → Nat) :
    Steady r (r.solicitVotes .vote voteTerm next) := by
  have hrec := r.recordVote_steady r.id true
  rcases r.solicitVotesWith_cases (.inl rfl) voteTerm _ _ rfl with ⟨_,h⟩ | ⟨_,h⟩
  · rw [solicitVotes,h]
    exact hrec.trans (becomeLeader_steady _)
  · exact hrec.trans h.same.steady

theorem handleVoteResp_congr (h : r.state = .preCandidate → Decides r m → next r.term = next' r.term) :
    r.handleVoteResp m next = r.handleVoteResp m next' := by
  obtain ⟨-,-,hstate,hterm,-,-⟩ := r.recordVote_role m.sender (!m.reject)
  unfold handleVoteResp
  simp only
  split
  · rename_i hwon
    split
    · rename_i hpre
      have hnext := h (hstate ▸ hpre) (decides_iff.mpr hwon)
      have hc : (r.recordVote m.sender (!m.reject)).becomeCandidate next =
          (r.recordVote m.sender (!m.reject)).becomeCandidate next' := becomeCandidate_congr (by rw [hterm,hnext])
      rw [hc]
      rfl
    · rfl
  · rfl

private theorem stepRole_congr
    (h : r.state = .preCandidate → m.type = .preVoteResp → Decides r m → next r.term = next' r.term) :
    r.stepRole m next = r.stepRole m next' := by
  have hcand : r.stepCandidate m next = r.stepCandidate m next' := by
    unfold stepCandidate
    simp only
    split
    · rfl
    · rfl
    · rfl
    by_cases ht : m.type = if r.state = .preCandidate then MessageType.preVoteResp else .voteResp
    · rw [if_pos ht,if_pos ht]
      exact handleVoteResp_congr fun hs hq => h hs (by rw [ht,if_pos hs]) hq
    · rw [if_neg ht,if_neg ht]
  unfold stepRole
  split
  · rfl
  · rfl
  split
  · rfl
  · exact hcand
  · exact hcand
  · rfl

theorem step_congr (h : Elevates r m → next r.term = next' r.term) : r.step m next = r.step m next' := by
  by_cases ht : m.type = .preVoteResp
  · rw [step_preVoteResp ht,step_preVoteResp ht]
    split_ifs with hterm
    · rw [stepRole_congr fun hs _ hq => h ⟨hs,ht,hterm,hq⟩]
    · rw [stepRole_congr fun hs => absurd hs (by simp [becomeFollower])]
    · rfl
  have hrole : ∀ r : Raft, r.stepRole m next = r.stepRole m next' := fun r => stepRole_congr fun _ h => absurd h ht
  unfold step
  simp only [hrole]

private theorem step_term_of_elevates (h : Elevates r m) : (r.step m next).1.term = next r.term := by
  obtain ⟨hs,ht,hterm,hq⟩ := h
  obtain ⟨-,-,hstate,hrt,-,-⟩ := r.recordVote_role m.sender (!m.reject)
  have hcand : ((r.recordVote m.sender (!m.reject)).becomeCandidate next).term = next r.term := by
    unfold becomeCandidate
    rw [if_neg (by rw [hstate,hs]; simp)]
    exact congrArg next hrt
  rw [step_preVoteResp ht,if_pos hterm]
  simp only [stepRole,stepCandidate,handleVoteResp,ht,hs,if_true]
  rw [if_pos (decides_iff.mp hq),if_pos (hstate.trans hs)]
  exact (solicitVotes_vote_steady _ _ _).term.trans hcand

private theorem solicitVotes_congr (t : MessageType) (voteTerm : Nat) (h : next r.term = next' r.term) :
    r.solicitVotes t voteTerm next = r.solicitVotes t voteTerm next' := by
  have hc : (r.recordVote r.id true).becomeCandidate next = (r.recordVote r.id true).becomeCandidate next' :=
    becomeCandidate_congr (by rw [(r.recordVote_role r.id true).2.2.2.1,h])
  unfold solicitVotes solicitVotesWith
  simp only [hc]

private theorem tick_congr (h : next r.term = next' r.term) : r.tick next = r.tick next' := by
  have hcampaign : ∀ r' : Raft, r'.term = r.term → r'.campaign next = r'.campaign next' := by
    intro r' hr'
    unfold campaign
    split
    · have hterm : r'.becomePreCandidate.term = r.term := r'.becomePreCandidate_steady.term.trans hr'
      simp only [hterm,h]
      exact solicitVotes_congr _ _ (by rw [hterm,h])
    · rw [becomeCandidate_congr (show next r'.term = next' r'.term by rw [hr',h])]
      rfl
  unfold tick
  split
  · rfl
  unfold tickElection
  simp only
  split
  · exact hcampaign _ rfl
  · rfl

theorem decided_alone (hs : r.state ≠ .leader) :
    (r.becomePreCandidate.recordVote r.becomePreCandidate.id true).tallyGranted = 1 ∧
      (r.becomePreCandidate.recordVote r.becomePreCandidate.id true).quorum = r.quorum := by
  rw [tallyGranted_recordVote,quorum,(recordVote_role _ _ _).2.1]
  unfold becomePreCandidate
  rw [if_neg hs]
  exact ⟨rfl,rfl⟩

private theorem tick_term_of_campaigns (h : Campaigns r) : (r.tick next).term = next r.term := by
  obtain ⟨hs,hprom,hpast,hreal⟩ := h
  let r₀ : Raft := { r with electionElapsed := 0 }
  have htick : r.tick next = r₀.campaign next := by
    have hdue : ({ r with electionElapsed := r.electionElapsed + 1 } : Raft).promotable &&
        ({ r with electionElapsed := r.electionElapsed + 1 } : Raft).pastElectionTimeout := by
      rw [Bool.and_eq_true]
      exact ⟨hprom,decide_eq_true hpast⟩
    have hel : r.tick next = r.tickElection next := by
      unfold tick
      split
      · rename_i hst
        exact absurd hst hs
      · rfl
    rw [hel]
    exact if_pos hdue
  have hstand : ∀ r' : Raft, r'.state ≠ .leader → (r'.becomeCandidate next).term = next r'.term := by
    intro r' hs'
    unfold becomeCandidate
    rw [if_neg hs']
    rfl
  rw [htick]
  unfold campaign
  split
  · rename_i hpre
    obtain ⟨htally,hquorum⟩ := decided_alone (r := r₀) hs
    have hq : r.quorum ≤ 1 := hreal.resolve_left (by rw [show r.cfg.preVote = true from hpre]; simp)
    have hpc : r₀.becomePreCandidate.state = .preCandidate := by
      unfold becomePreCandidate
      rw [if_neg hs]
    obtain ⟨-,-,hstate,hterm,-,-⟩ := r₀.becomePreCandidate.recordVote_role r₀.becomePreCandidate.id true
    simp only [solicitVotes,solicitVotesWith,if_true]
    rw [if_pos (show (r₀.becomePreCandidate.recordVote r₀.becomePreCandidate.id true).tallyGranted ≥ _ by
      rw [htally,hquorum]
      exact hq)]
    refine ((solicitVotes_vote_steady _ _ next).term.trans (hstand _ ?_)).trans ?_
    · rw [hstate,hpc]
      simp
    · rw [hterm,r₀.becomePreCandidate_steady.term]
  · exact (solicitVotes_vote_steady _ _ _).term.trans (hstand r₀ hs)

theorem tick_steady (h : ¬ Campaigns r) : Steady r (r.tick next) := by
  unfold tick
  split
  · unfold tickHeartbeat
    simp only
    split
    · have h := (bcastHeartbeat_same { r with heartbeatElapsed := 0 }).steady
      exact ⟨h.term,h.vote⟩
    · exact ⟨rfl,rfl⟩
  rename_i hs
  unfold tickElection
  simp only
  split
  · rename_i hdue
    rw [Bool.and_eq_true] at hdue
    let r₀ : Raft := { r with electionElapsed := 0 }
    have hs₀ : r₀.state ≠ .leader := fun heq => hs heq
    have hpre : r.cfg.preVote = true ∧ 1 < r.quorum := by
      by_contra hcon
      refine h ⟨hs,hdue.1,of_decide_eq_true hdue.2,?_⟩
      cases hp : r.cfg.preVote with
      | false => exact .inl rfl
      | true => exact .inr (Nat.not_lt.mp fun hlt => hcon ⟨hp,hlt⟩)
    obtain ⟨htally,hquorum⟩ := decided_alone (r := r₀) hs₀
    have hshort : ¬ (r₀.becomePreCandidate.recordVote r₀.becomePreCandidate.id true).tallyGranted ≥
        (r₀.becomePreCandidate.recordVote r₀.becomePreCandidate.id true).quorum := by
      rw [htally,hquorum]
      exact Nat.not_le.mpr hpre.2
    have hrec : Steady r₀ (r₀.becomePreCandidate.recordVote r₀.becomePreCandidate.id true) :=
      r₀.becomePreCandidate_steady.trans (recordVote_steady _ _ _)
    have hall : Steady r₀ (r₀.campaign next) := by
      rw [campaign,if_pos (show r₀.cfg.preVote = true from hpre.1)]
      rcases r₀.becomePreCandidate.solicitVotesWith_cases (.inr rfl) (next r₀.becomePreCandidate.term) _ _ rfl with
        ⟨hq,_⟩ | ⟨_,h⟩
      · exact absurd hq hshort
      · exact hrec.trans h.same.steady
    exact ⟨hall.term,hall.vote⟩
  · exact ⟨rfl,rfl⟩

theorem step_nextTerm (h : r.term < maxTerm) : r.step m nextTerm = r.step m := step_congr fun _ => nextTerm_lt h

theorem tick_nextTerm (h : r.term < maxTerm) : r.tick nextTerm = r.tick := tick_congr (nextTerm_lt h)

/-- Whatever is handed to a node, its term and vote go forward, unless it is a candidate that meets a message without a
term, or the message or the tick makes it a candidate in the last term. -/
theorem ballot_forward_iff (r : Raft) (hr : r.term ≤ maxTerm) :
    (∀ m, Forward r (r.step m nextTerm).1 ↔ ¬ Termless r m ∧ ¬ (r.term = maxTerm ∧ Elevates r m)) ∧
      (Forward r (r.tick nextTerm) ↔ ¬ (r.term = maxTerm ∧ Campaigns r)) := by
  have hpos : 0 < maxTerm := by decide
  have hexact : ∀ m, Forward r (r.step m).1 ↔ ¬ Termless r m := fun m =>
    ⟨fun hf ht => absurd hf.1 (Nat.not_le.mpr (r.step_termless m ht)),r.step_forward m⟩
  rcases Nat.lt_or_eq_of_le hr with hlt | heq
  · refine ⟨fun m => ?_,?_⟩
    · rw [step_nextTerm hlt,hexact]
      exact ⟨fun h => ⟨h,fun hmax => absurd hmax.1 (Nat.ne_of_lt hlt)⟩,And.left⟩
    · rw [tick_nextTerm hlt]
      exact ⟨fun _ hmax => absurd hmax.1 (Nat.ne_of_lt hlt),fun _ => r.tick_forward⟩
  -- In the last term the successor is 0.
  have hback : ∀ r' : Raft, r'.term = nextTerm r.term → ¬ Forward r r' := by
    intro r' hterm hf
    have := hf.1
    rw [hterm,heq,nextTerm_maxTerm] at this
    omega
  refine ⟨fun m => ?_,?_⟩
  · by_cases he : Elevates r m
    · exact ⟨fun hf => absurd hf (hback _ (step_term_of_elevates he)),fun h => absurd ⟨heq,he⟩ h.2⟩
    · rw [show r.step m nextTerm = r.step m from step_congr fun h => absurd h he,hexact]
      exact ⟨fun h => ⟨h,fun hmax => he hmax.2⟩,And.left⟩
  by_cases hc : Campaigns r
  · exact ⟨fun hf => absurd hf (hback _ (tick_term_of_campaigns hc)),fun h => absurd ⟨heq,hc⟩ h⟩
  · exact ⟨fun _ hmax => hc hmax.2,fun _ => (tick_steady hc).forward⟩

/-- Node 1 of three, new. -/
def fresh : Raft := newRaft { id := 1, peers := [1,2,3], electionTicks := 2, heartbeatTicks := 1 } {} fun _ => 0

/-- It has voted for itself in term 1. -/
def standing : Raft := (fresh.tick nextTerm).tick nextTerm

/-- It has voted for node 2 in the last term. -/
def last : Raft := (fresh.step { type := .vote, sender := 2, term := maxTerm } nextTerm).1

theorem ballot_forward_standing :
    Forward standing (standing.step { type := .vote, sender := 2, term := 1 } nextTerm).1 ∧
      Forward standing (standing.tick nextTerm) ∧ Forward last (last.tick nextTerm) := by
  have h₁ := ballot_forward_iff standing (by decide +kernel)
  have h₂ := ballot_forward_iff last (by decide +kernel)
  exact ⟨(h₁.1 _).mpr (by decide +kernel),h₁.2.mpr (by decide +kernel),h₂.2.mpr (by decide +kernel)⟩

/-- A message of type MsgAppend with no other field set takes it back to term 0, and it votes for another in term 1.
A campaign in the last term leads to term 0 as well. -/
theorem standing_votes_twice :
    standing.state = .candidate ∧ standing.term = 1 ∧ standing.vote = 1 ∧
      (standing.step { type := .append } nextTerm).1.term = 0 ∧ (standing.step { type := .append } nextTerm).1.vote = None ∧
      ((standing.step { type := .append } nextTerm).1.step { type := .vote, sender := 2, term := 1 } nextTerm).1.vote = 2 ∧
    last.term = maxTerm ∧ last.vote = 2 ∧
      ((last.tick nextTerm).tick nextTerm).term = 0 ∧ ((last.tick nextTerm).tick nextTerm).vote = 1 := by
  decide +kernel

end Raft
end Parallax
