import Parallax.Raft.Same

/-! What an input can do to a node's role, term, leader hint and tally. -/
namespace Parallax
namespace Raft

/-- `r'` has the role of `r`: the same state, term, hint and votes. -/
structure Keeps (r r' : Raft) : Prop where
  id : r'.id = r.id
  peers : r'.peers = r.peers
  state : r'.state = r.state
  term : r'.term = r.term
  lead : r'.lead = r.lead
  votes : r'.votes = r.votes

theorem Keeps.refl (r : Raft) : Keeps r r := ⟨rfl,rfl,rfl,rfl,rfl,rfl⟩

theorem Keeps.trans {r r' r'' : Raft} (h : Keeps r r') (h' : Keeps r' r'') : Keeps r r'' :=
  ⟨h'.id.trans h.id,h'.peers.trans h.peers,h'.state.trans h.state,h'.term.trans h.term,
    h'.lead.trans h.lead,h'.votes.trans h.votes⟩

theorem Same.keeps {r r' : Raft} (h : Same r r') : Keeps r r' :=
  ⟨h.id,h.peers,h.state,h.term,h.lead,h.votes⟩

variable (r : Raft)

theorem keeps_log (l : RaftLog) (prs : AList (fun _ : Nat => Progress)) :
    Keeps r { r with raftLog := l, prs := prs } := ⟨rfl,rfl,rfl,rfl,rfl,rfl⟩

theorem maybeCommit_keeps : Keeps r r.maybeCommit.1 := by
  rcases r.maybeCommit_cases with ⟨h,_⟩ | ⟨i,h,_⟩
  · exact h.keeps
  · exact (r.keeps_log _ r.prs).trans h.keeps

theorem appendEntry_keeps (es : List Entry) : Keeps r (r.appendEntry es) := by
  unfold appendEntry
  simp only
  split
  · exact (r.keeps_log _ r.prs).trans (panic_same _ _).keeps
  · exact (r.keeps_log _ _).trans (maybeCommit_keeps _)

theorem handleAppend_keeps (m : Message) : Keeps r (r.handleAppend m) := by
  unfold handleAppend
  split
  · exact (r.send_same _).keeps
  split
  · exact (r.keeps_log _ r.prs).trans (send_same _ _).keeps
  · exact (r.send_same _).keeps

theorem handleHeartbeat_keeps (m : Message) : Keeps r (r.handleHeartbeat m) :=
  (r.keeps_log _ r.prs).trans (send_same _ _).keeps

private theorem restore_keeps (snap : Snapshot) : Keeps r (r.restore snap).1 := by
  unfold restore
  split
  · exact Keeps.refl r
  split
  · exact r.keeps_log _ r.prs
  · exact r.keeps_log _ r.prs

theorem handleSnapshot_keeps (m : Message) : Keeps r (r.handleSnapshot m) := by
  unfold handleSnapshot
  split
  · exact Keeps.refl r
  rename_i snap _
  have h := r.restore_keeps snap
  split <;> rename_i r' heq <;> rw [heq] at h <;> exact h.trans (send_same _ _).keeps

theorem Reported.keeps {r r' : Raft} {m : Message} {calls : List (Raft × Nat)} (h : Reported r m r' calls) :
    Keeps r r' := by
  have hprs : ∀ prs, Keeps r { r with prs := prs } := r.keeps_log r.raftLog
  cases h with
  | idle => exact .refl r
  | refused | installed => exact (hprs _).trans (sendAppend_same _ _).keeps
  | acked => exact hprs _
  | held => exact (hprs _).trans (maybeCommit_keeps _)
  | committed _ _ _ _ _ hc =>
    subst hc
    exact ((hprs _).trans (maybeCommit_keeps _)).trans (bcastAppend_same _).keeps
  | beat => exact (r.handleHeartbeatResp_same m).keeps

theorem handleVoteRequest_keeps (m : Message) : Keeps r (r.handleVoteRequest m) := by
  unfold handleVoteRequest
  split
  · exact (r.panic_same _).keeps
  simp only
  split
  · exact (r.send_same _).keeps
  split
  · have hk : Keeps r { r with vote := m.sender, electionElapsed := 0 } := ⟨rfl,rfl,rfl,rfl,rfl,rfl⟩
    exact hk.trans (send_same _ _).keeps
  · exact (r.send_same _).keeps

/-- Whose grant a tally of pre-votes may count: the node's own, one it held already, or the
one that just arrived. -/
def Tallied (r : Raft) (i : Option Message) (v : Nat) : Prop :=
  v = r.id ∨ (r.state = .preCandidate ∧ (r.votes.lookup v = some true ∨
    ∃ m, i = some m ∧ m.type = .preVoteResp ∧ m.reject = false ∧ m.sender = v ∧ r.term ≤ m.term))

/-- The messages only a leader sends. -/
def FromLeader (m : Message) : Prop :=
  m.type = .append ∨ m.type = .heartbeat ∨ m.type = .installSnapshot

instance (m : Message) : Decidable (FromLeader m) := by unfold FromLeader; infer_instance

/-- A pre-candidate has not won its tally yet. -/
def Undecided (r : Raft) : Prop := r.state = .preCandidate → r.tallyGranted < r.quorum

theorem Undecided.of_ne {r : Raft} (h : r.state ≠ .preCandidate) : Undecided r := fun hs => absurd hs h

theorem Keeps.undecided {r r' : Raft} (h : Keeps r r') (hu : Undecided r) : Undecided r' := by
  intro hs
  rw [tallyGranted,quorum,h.votes,h.peers]
  exact hu (h.state ▸ hs)

/-- The effect of the input `i`, `none` being a tick. -/
inductive RoleEffect (r : Raft) (i : Option Message) (r' : Raft) : Prop
  | kept (hs : r'.state = r.state) (ht : r'.term = r.term) (hl : r'.lead = r.lead)
      (hv : r'.state = .preCandidate → ∀ v, r'.votes.lookup v = some true → Tallied r i v)
      (hu : Undecided r → Undecided r')
  | follows (m : Message) (hi : i = some m) (hm : FromLeader m) (hs : r'.state = .follower)
      (ht : r'.term = m.term) (hle : r.term ≤ m.term) (hl : r'.lead = m.sender)
  | adopts (m : Message) (hi : i = some m) (hgt : r.term < m.term) (hm : ¬ FromLeader m)
      (hloc : m.type ≠ .propose ∧ m.type ≠ .readIndex) (hp : m.type ≠ .preVote)
      (hg : m.type = .preVoteResp → m.reject = true) (hs : r'.state = .follower)
      (ht : r'.term = m.term) (hl : r'.lead = if m.type = .vote then None else m.sender)
  | retires (hs : r'.state = .follower) (ht : r'.term = r.term) (hl : r'.lead = None)
  | probes (hs : r'.state = .preCandidate) (ht : r'.term = r.term) (hl : r'.lead = None)
      (hv : ∀ v, r'.votes.lookup v = some true → v = r.id) (hu : Undecided r')
  /-- With PreVote on, a majority of grants stands behind the new term. -/
  | campaigns (hs₀ : r.state ≠ .leader) (hs : r'.state = .candidate ∨ r'.state = .leader) (ht : r'.term = r.term + 1)
      (hl : r'.lead = None ∨ (r'.state = .leader ∧ r'.lead = r.id))
      (hq : r.cfg.preVote = true → ∃ r₀ : Raft, r₀.peers = r.peers ∧ r₀.quorum ≤ r₀.tallyGranted ∧
        ∀ v, r₀.votes.lookup v = some true → Tallied r i v)
  | elected (hs₀ : r.state = .candidate) (hs : r'.state = .leader) (ht : r'.term = r.term) (hl : r'.lead = r.id)

variable {i : Option Message}

/-- A leader that leads after the input leads the same term. -/
theorem RoleEffect.leader_term {r r' : Raft} (h : RoleEffect r i r') (hl : r.state = .leader)
    (hl' : r'.state = .leader) : r'.term = r.term := by
  cases h with
  | kept _ ht | retires _ ht | probes _ ht | elected _ _ ht => exact ht
  | follows _ _ _ hs | adopts _ _ _ _ _ _ _ hs => simp [hs] at hl'
  | campaigns hs₀ => exact absurd hl hs₀

/-- A tally that is won is left behind in the same step. -/
theorem RoleEffect.undecided {r r' : Raft} (h : RoleEffect r i r') (hu : Undecided r) : Undecided r' := by
  cases h with
  | kept _ _ _ _ hk => exact hk hu
  | probes _ _ _ _ hk => exact hk
  | follows _ _ _ hs | adopts _ _ _ _ _ _ _ hs | retires hs | elected _ hs => exact .of_ne (by rw [hs]; simp)
  | campaigns _ hs => exact .of_ne (by rcases hs with hs | hs <;> rw [hs] <;> simp)

theorem Keeps.effect {r r' : Raft} (h : Keeps r r') : RoleEffect r i r' :=
  .kept h.state h.term h.lead (fun hs _ hv => .inr ⟨h.state ▸ hs,.inl (h.votes ▸ hv)⟩) h.undecided

private theorem recordVote_votes (id : Nat) (granted : Bool) {v : Nat}
    (h : (r.recordVote id granted).votes.lookup v = some true) :
    r.votes.lookup v = some true ∨ (v = id ∧ granted = true) := by
  unfold recordVote at h
  split at h
  · by_cases hv : v = id
    · subst hv
      simp only [AList.lookup_insert,Option.some.injEq] at h
      exact .inr ⟨rfl,h⟩
    · rw [AList.lookup_insert_ne hv] at h
      exact .inl h
  · exact .inl h

theorem recordVote_role (id : Nat) (granted : Bool) : (r.recordVote id granted).id = r.id ∧
    (r.recordVote id granted).peers = r.peers ∧ (r.recordVote id granted).state = r.state ∧
    (r.recordVote id granted).term = r.term ∧ (r.recordVote id granted).lead = r.lead ∧
    (r.recordVote id granted).cfg = r.cfg := by
  unfold recordVote
  split <;> exact ⟨rfl,rfl,rfl,rfl,rfl,rfl⟩

theorem becomeLeader_role (hs : r.state ≠ .follower) : r.becomeLeader.state = .leader ∧
    r.becomeLeader.term = r.term ∧ r.becomeLeader.lead = r.id := by
  unfold becomeLeader
  rw [if_neg hs]
  have h := appendEntry_keeps { r.reset r.term with lead := r.id, state := .leader } [{ type := .noop }]
  exact ⟨h.state,h.term,h.lead⟩

/-- A real campaign raises the term by one. -/
theorem becomeCandidate_role (hs : r.state ≠ .leader) : r.becomeCandidate.state = .candidate ∧
    r.becomeCandidate.term = r.term + 1 ∧ r.becomeCandidate.lead = None ∧ r.becomeCandidate.id = r.id := by
  unfold becomeCandidate
  rw [if_neg hs]
  exact ⟨rfl,rfl,rfl,rfl⟩

/-- A node that stands, with its own vote. -/
theorem stood_role {r₁ : Raft} (hs : r.state ≠ .leader)
    (hr : r₁ = r.becomeCandidate.recordVote r.becomeCandidate.id true) :
    r₁.state = .candidate ∧ r₁.term = r.term + 1 ∧ r₁.lead = None ∧ r₁.id = r.id := by
  obtain ⟨h1,h2,h3,h4⟩ := r.becomeCandidate_role hs
  obtain ⟨kid,_,kst,kt,kld,_⟩ := r.becomeCandidate.recordVote_role r.becomeCandidate.id true
  subst hr
  exact ⟨kst.trans h1,kt.trans h2,kld.trans h3,kid.trans h4⟩

/-- A node that probes, with its own vote. -/
theorem probed_role {r₁ : Raft} (hs : r.state ≠ .leader)
    (hr : r₁ = r.becomePreCandidate.recordVote r.becomePreCandidate.id true) :
    r₁.state = .preCandidate ∧ r₁.term = r.term ∧ r₁.lead = None ∧ r₁.id = r.id ∧ r₁.peers = r.peers ∧
      ∀ v, r₁.votes.lookup v = some true → v = r.id := by
  obtain ⟨kid,kpe,kst,kt,kld,_⟩ := r.becomePreCandidate.recordVote_role r.becomePreCandidate.id true
  have hv := fun v => r.becomePreCandidate.recordVote_votes r.becomePreCandidate.id true (v := v)
  rw [← hr] at kid kpe kst kt kld hv
  have hpre : r.becomePreCandidate = { r.resetRandomizedElectionTimeout with
      state := .preCandidate, votes := ∅, lead := None, electionElapsed := 0 } := by
    unfold becomePreCandidate
    rw [if_neg hs]
  rw [hpre] at kid kpe kst kt kld hv
  exact ⟨kst,kt,kld,kid,kpe,fun v h => (hv v h).elim (fun h => by simp at h) (·.1)⟩

variable {r' : Raft}

private theorem Stands.role {r : Raft} (h : Stands r r') (hs : r.state ≠ .leader) :
    (r'.state = .candidate ∨ r'.state = .leader) ∧ r'.term = r.term + 1 ∧
      (r'.lead = None ∨ (r'.state = .leader ∧ r'.lead = r.id)) := by
  cases h with
  | asks r₁ _ hr h =>
    obtain ⟨h1,h2,h3,_⟩ := r.stood_role hs hr
    exact ⟨.inl (h.same.state.trans h1),h.same.term.trans h2,.inl (h.same.lead.trans h3)⟩
  | wins r₁ hr =>
    obtain ⟨h1,h2,_,h4⟩ := r.stood_role hs hr
    obtain ⟨k1,k2,k3⟩ := r₁.becomeLeader_role (by rw [h1]; simp)
    exact ⟨.inr k1,k2.trans h2,.inr ⟨k1,k3.trans h4⟩⟩

private theorem Campaigned.role {r : Raft} (h : Campaigned r r') (hs : r.state ≠ .leader) : RoleEffect r i r' := by
  cases h with
  | probes r₁ _ hr hq h =>
    obtain ⟨h1,h2,h3,_,_,hown⟩ := r.probed_role hs hr
    exact .probes (h.same.state.trans h1) (h.same.term.trans h2) (h.same.lead.trans h3)
      (fun v hv => hown v (h.same.votes ▸ hv)) (h.same.keeps.undecided fun _ => hq)
  | passes r₁ _ hr hq h =>
    obtain ⟨h1,h2,_,h4,h5,hown⟩ := r.probed_role hs hr
    obtain ⟨k1,k2,k3⟩ := h.role (by rw [h1]; simp)
    exact .campaigns hs k1 (by rw [k2,h2]) (h4 ▸ k3) fun _ => ⟨r₁,h5,hq,fun v hv => .inl (hown v hv)⟩
  | stands _ hp h =>
    obtain ⟨k1,k2,k3⟩ := h.role hs
    exact .campaigns hs k1 k2 k3 fun h => by simp [hp] at h

private theorem Ticked.role {r : Raft} (h : Ticked r r') : RoleEffect r none r' := by
  cases h with
  | beats =>
    have hk : Keeps r { r with heartbeatElapsed := 0 } := ⟨rfl,rfl,rfl,rfl,rfl,rfl⟩
    exact (hk.trans (bcastHeartbeat_same _).keeps).effect
  | waits => exact Keeps.effect ⟨rfl,rfl,rfl,rfl,rfl,rfl⟩
  | campaigns _ hs h => exact h.role hs

theorem tick_role : RoleEffect r none r.tick := r.tick_ticked.role

variable {m : Message}

private theorem Balloted.role {r : Raft} {calls : List (Raft × Nat)}
    (h : Balloted r (r.recordVote m.sender (!m.reject)) r' calls) (hle : r.term ≤ m.term)
    (hs : r.state = .preCandidate ∧ m.type = .preVoteResp ∨ r.state = .candidate ∧ m.type = .voteResp) :
    RoleEffect r (some m) r' := by
  obtain ⟨kid,kpe,kst,kt,kld,_⟩ := r.recordVote_role m.sender (!m.reject)
  have htally : r.state = .preCandidate → ∀ v,
      (r.recordVote m.sender (!m.reject)).votes.lookup v = some true → Tallied r (some m) v := by
    intro hp v hv
    rcases r.recordVote_votes _ _ hv with h | ⟨rfl,h⟩
    · exact .inr ⟨hp,.inl h⟩
    rcases hs with ⟨_,ht⟩ | ⟨hc,_⟩
    · exact .inr ⟨hp,.inr ⟨m,rfl,ht,by simpa using h,rfl,hle⟩⟩
    · rw [hp] at hc
      cases hc
  cases h with
  | waits hq => exact .kept kst kt kld (fun hp v hv => htally (kst.symm.trans hp) v hv) fun _ _ => hq
  | retires => exact .retires rfl kt rfl
  | stands _ hp hq h =>
    obtain ⟨k1,k2,k3⟩ := h.role (by rw [kst,hp]; simp)
    exact .campaigns (by rw [hp]; simp) k1 (by rw [k2,kt]) (kid ▸ k3) fun _ => ⟨_,kpe,hq,htally hp⟩
  | wins hp =>
    have hcand : r.state = .candidate := (hs.resolve_left fun h => hp h.1).1
    obtain ⟨h1,h2,h3⟩ := (r.recordVote m.sender (!m.reject)).becomeLeader_role (by rw [kst,hcand]; simp)
    have h := bcastAppend_same (r.recordVote m.sender (!m.reject)).becomeLeader
    exact .elected hcand (h.state.trans h1) (by rw [h.term,h2,kt]) (by rw [h.lead,h3,kid])

theorem FromLeader.other (h : FromLeader m) : m.type ≠ .vote ∧ m.type ≠ .preVote ∧ m.type ≠ .preVoteResp := by
  rcases h with h | h | h <;> rw [h] <;> simp

section ways
variable {r} {calls : List (Raft × Nat)}

theorem Passes.fromLeader (h : Passes r m) (hloc : m.type ≠ .propose ∧ m.type ≠ .readIndex)
    (hm : m.type = .propose ∨ m.type = .readIndex ∨ 0 < m.term) (hf : FromLeader m) : m.term = r.term :=
  (h.term hloc hm).2 hf.other.2.1 hf.other.2.2

theorem Heard.fromLeader (h : Heard r m r') : FromLeader m := by
  cases h with
  | append ht => exact .inl ht
  | heartbeat ht => exact .inr (.inl ht)
  | snapshot ht => exact .inr (.inr ht)

theorem Heard.keeps (h : Heard r m r') : Keeps r r' := by
  cases h with
  | append => exact r.handleAppend_keeps m
  | heartbeat => exact r.handleHeartbeat_keeps m
  | snapshot => exact r.handleSnapshot_keeps m

private theorem Handled.role (h : Handled r m r' calls) (hle : r.term ≤ m.term) (hl : FromLeader m → m.term = r.term) :
    RoleEffect r (some m) r' := by
  cases h with
  | idle => exact (Keeps.refl r).effect
  | request => exact (r.handleVoteRequest_keeps m).effect
  | heard r₁ _ hb h =>
    have hterm := hl h.fromLeader
    obtain ⟨ht,hlead⟩ := hb.follows hterm
    exact .follows m rfl h.fromLeader (h.keeps.state.trans hb.state) (by rw [h.keeps.term,ht,hterm]) hterm.ge
      (h.keeps.lead.trans hlead)
  | ballot hs => exact (r.handleVoteResp_balloted m).role hle hs
  | report _ _ _ h => exact h.keeps.effect

/-- A node that adopted the term of `m` stays a follower in it. -/
theorem Handled.down {lead : Nat} (hl : lead = if m.type = .vote then None else m.sender)
    (h : Handled (r.becomeFollower m.term lead) m r' calls) :
    r'.state = .follower ∧ r'.term = m.term ∧ r'.lead = lead := by
  cases h with
  | idle => exact ⟨rfl,rfl,rfl⟩
  | request =>
    have h := (r.becomeFollower m.term lead).handleVoteRequest_keeps m
    exact ⟨h.state,h.term,h.lead⟩
  | heard r₁ _ hb h =>
    obtain ⟨ht,hlead⟩ := hb.follows rfl
    exact ⟨h.keeps.state.trans hb.state,h.keeps.term.trans ht,
      by rw [h.keeps.lead,hlead,hl,if_neg h.fromLeader.other.1]⟩
  | ballot hs => rcases hs with ⟨hs,_⟩ | ⟨hs,_⟩ <;> cases hs
  | report _ _ hs => cases hs

theorem Stepped.role_effect (h : Stepped r m r' calls) (hm : m.type = .propose ∨ m.type = .readIndex ∨ 0 < m.term) :
    RoleEffect r (some m) r' := by
  cases h with
  | ignored => exact (Keeps.refl r).effect
  | proposed _ _ _ _ hr =>
    subst hr
    exact ((r.appendEntry_keeps _).trans (bcastAppend_same _).keeps).effect
  | read => exact (r.stepReadIndex_same m).keeps.effect
  | sticky => exact (r.rejectSticky_same m).keeps.effect
  | stale => exact (r.rejectStale_same m).keeps.effect
  | role _ _ hloc hp h => exact h.role (hp.term hloc hm).1 (hp.fromLeader hloc hm)
  | adopts _ _ hloc hgt hp hg h =>
    obtain ⟨h1,h2,h3⟩ := h.down rfl
    by_cases hf : FromLeader m
    · exact .follows m rfl hf h1 h2 (Nat.le_of_lt hgt) (by rw [h3,if_neg hf.other.1])
    · exact .adopts m rfl hgt hf hloc hp (fun ht => by simpa [ht] using hg) h1 h2 h3

end ways

theorem step_role (hm : m.type = .propose ∨ m.type = .readIndex ∨ 0 < m.term) :
    RoleEffect r (some m) (r.step m).1 :=
  (r.step_stepped m).role_effect hm

theorem tallyGranted_recordVote (id : Nat) (granted : Bool) :
    (r.recordVote id granted).tallyGranted = r.tallyGranted + if granted = true ∧ id ∉ r.votes then 1 else 0 := by
  unfold recordVote
  split
  · rename_i hid
    have hnew : id ∉ r.votes := AList.lookup_eq_none.mp hid
    rw [tallyGranted,AList.entries_insert_of_notMem hnew,List.filter_cons]
    cases granted with
    | true => simp [hnew,tallyGranted]
    | false => simp [tallyGranted]
  rename_i hid
  have hold : id ∈ r.votes := by
    rw [← AList.lookup_isSome,hid]
    rfl
  simp [hold]

theorem step_refused (hu : Undecided r) (hs : r.state = .preCandidate) (ht : m.type = .preVoteResp)
    (hrej : m.reject = true) (hpos : 0 < m.term) (hle : m.term ≤ r.term) : (r.step m).1.term = r.term := by
  have hsticky : r.sticky m = false := by simp [sticky,ht]
  unfold step
  rw [ht]
  simp only [hsticky]
  rw [if_neg (by simp),if_neg (by omega),if_neg (by omega)]
  split
  · exact (r.rejectStale_same m).term
  obtain ⟨_,hpe,_,hterm,_,_⟩ := r.recordVote_role m.sender false
  unfold stepRole stepCandidate
  simp only [ht,hs,if_true]
  unfold handleVoteResp
  rw [hrej]
  have hshort : ¬ (r.recordVote m.sender false).quorum ≤ (r.recordVote m.sender false).tallyGranted := by
    rw [tallyGranted_recordVote,if_neg (by simp),Nat.add_zero,quorum,hpe]
    exact not_le.mpr (hu hs)
  simp only [Bool.not_true,ge_iff_le,if_neg hshort]
  split
  · exact hterm
  · exact hterm

end Raft
end Parallax
