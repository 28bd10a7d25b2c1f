import Parallax.Raft.Role

/-! Term and vote under any input whatsoever: they move forward, except that a candidate takes over the term of a
message from a leader even if it has none. -/
namespace Parallax
namespace Raft

/-- The term does not fall, and the vote changes with the term or from none. -/
def Forward (r r' : Raft) : Prop :=
  r.term ≤ r'.term ∧ (r'.vote = r.vote ∨ r.term < r'.term ∨ (r.vote = None ∧ r'.vote ≠ None))

/-- The ballot is as it was. -/
structure Steady (r r' : Raft) : Prop where
  term : r'.term = r.term
  vote : r'.vote = r.vote

theorem Steady.refl (r : Raft) : Steady r r := ⟨rfl,rfl⟩

theorem Steady.trans {r r' r'' : Raft} (h : Steady r r') (h' : Steady r' r'') : Steady r r'' :=
  ⟨h'.term.trans h.term,h'.vote.trans h.vote⟩

theorem Same.steady {r r' : Raft} (h : Same r r') : Steady r r' := ⟨h.term,h.vote⟩

theorem Steady.forward {r r' : Raft} (h : Steady r r') : Forward r r' := ⟨h.term.ge,.inl h.vote⟩

theorem Forward.trans {r r' r'' : Raft} (h : Forward r r') (h' : Forward r' r'') : Forward r r'' := by
  obtain ⟨hle,hv⟩ := h
  obtain ⟨hle',hv'⟩ := h'
  refine ⟨hle.trans hle',?_⟩
  rcases hv with hv | hlt | ⟨hnone,hne⟩
  · rcases hv' with hv' | hlt | ⟨hnone,hne⟩
    · exact .inl (hv'.trans hv)
    · exact .inr (.inl (by omega))
    · exact .inr (.inr ⟨hv ▸ hnone,hne⟩)
  · exact .inr (.inl (by omega))
  rcases hv' with hv' | hlt | ⟨hnone',_⟩
  · exact .inr (.inr ⟨hnone,hv' ▸ hne⟩)
  · exact .inr (.inl (by omega))
  · exact absurd hnone' hne

variable (r : Raft) (m : Message)

private theorem maybeCommit_steady : Steady r r.maybeCommit.1 := by
  rcases r.maybeCommit_cases with ⟨h,_⟩ | ⟨i,h,_⟩
  · exact h.steady
  · exact ⟨h.term,h.vote⟩

private theorem appendEntry_steady (es : List Entry) : Steady r (r.appendEntry es) := by
  unfold appendEntry
  simp only
  split
  · exact ⟨rfl,rfl⟩
  · exact ⟨(maybeCommit_steady _).term,(maybeCommit_steady _).vote⟩

private theorem handleAppend_steady : Steady r (r.handleAppend m) := by
  unfold handleAppend
  split
  · exact (r.send_same _).steady
  split
  · exact ⟨rfl,rfl⟩
  · exact (r.send_same _).steady

private theorem handleSnapshot_steady : Steady r (r.handleSnapshot m) := by
  have hrestore : ∀ snap, Steady r (r.restore snap).1 := by
    intro snap
    unfold restore
    split_ifs <;> exact ⟨rfl,rfl⟩
  unfold handleSnapshot
  split
  · exact .refl r
  rename_i snap _
  have h := hrestore snap
  split <;> rename_i r' heq <;> rw [heq] at h <;> exact h.trans (send_same _ _).steady

private theorem Reported.steady {r r' : Raft} {m : Message} {calls : List (Raft × Nat)} (h : Reported r m r' calls) :
    Steady r r' := by
  have hprs : ∀ prs, Steady r { r with prs := prs } := fun _ => ⟨rfl,rfl⟩
  cases h with
  | idle => exact .refl r
  | refused | installed => exact (hprs _).trans (sendAppend_same _ _).steady
  | acked => exact hprs _
  | held => exact (hprs _).trans (maybeCommit_steady _)
  | committed _ _ _ _ _ hc =>
    subst hc
    exact ((hprs _).trans (maybeCommit_steady _)).trans (bcastAppend_same _).steady
  | beat => exact (r.handleHeartbeatResp_same m).steady

private theorem Heard.steady {r r' : Raft} {m : Message} (h : Heard r m r') : Steady r r' := by
  cases h with
  | append => exact r.handleAppend_steady m
  | heartbeat => exact ⟨rfl,rfl⟩
  | snapshot => exact r.handleSnapshot_steady m

theorem recordVote_steady (v : Nat) (granted : Bool) : Steady r (r.recordVote v granted) := by
  unfold recordVote
  split <;> exact ⟨rfl,rfl⟩

theorem becomePreCandidate_steady : Steady r r.becomePreCandidate := by
  unfold becomePreCandidate
  split <;> exact ⟨rfl,rfl⟩

theorem becomeLeader_steady : Steady r r.becomeLeader := by
  unfold becomeLeader
  split
  · exact ⟨rfl,rfl⟩
  · have h := appendEntry_steady { r.reset r.term with lead := r.id, state := .leader } [{ type := .noop }]
    exact ⟨h.term,h.vote.trans (if_pos rfl)⟩

private theorem becomeFollower_forward {term : Nat} (lead : Nat) (h : r.term ≤ term) :
    Forward r (r.becomeFollower term lead) := by
  refine ⟨h,?_⟩
  by_cases heq : r.term = term
  · exact .inl (if_pos heq)
  · exact .inr (.inl (Nat.lt_of_le_of_ne h heq))

private theorem becomeCandidate_forward : Forward r r.becomeCandidate := by
  unfold becomeCandidate
  split
  · exact (r.panic_same _).steady.forward
  · exact ⟨Nat.le_succ _,.inr (.inl (Nat.lt_succ_self _))⟩

private theorem Stands.forward {r r' : Raft} (h : Stands r r') : Forward r r' := by
  have hc := r.becomeCandidate_forward.trans (r.becomeCandidate.recordVote_steady r.becomeCandidate.id true).forward
  cases h with
  | asks _ _ hr h => exact (hr ▸ hc).trans h.same.steady.forward
  | wins r₁ hr => exact (hr ▸ hc).trans r₁.becomeLeader_steady.forward

private theorem Campaigned.forward {r r' : Raft} (h : Campaigned r r') : Forward r r' := by
  have hp := (r.becomePreCandidate_steady.trans
    (r.becomePreCandidate.recordVote_steady r.becomePreCandidate.id true)).forward
  cases h with
  | probes _ _ hr _ h => exact (hr ▸ hp).trans h.same.steady.forward
  | passes _ _ hr _ h => exact (hr ▸ hp).trans h.forward
  | stands _ _ h => exact h.forward

private theorem Ticked.forward {r r' : Raft} (h : Ticked r r') : Forward r r' := by
  cases h with
  | beats =>
    have h := (bcastHeartbeat_same { r with heartbeatElapsed := 0 }).steady
    exact Steady.forward ⟨h.term,h.vote⟩
  | waits => exact Steady.forward ⟨rfl,rfl⟩
  | campaigns _ _ h => exact h.forward

theorem tick_forward : Forward r r.tick := r.tick_ticked.forward

private theorem Balloted.forward {r r' : Raft} {v : Nat} {g : Bool} {calls : List (Raft × Nat)}
    (h : Balloted r (r.recordVote v g) r' calls) : Forward r r' := by
  have hrec := (r.recordVote_steady v g).forward
  cases h with
  | waits => exact hrec
  | retires => exact hrec.trans (becomeFollower_forward _ _ (Nat.le_refl _))
  | stands _ _ _ h => exact hrec.trans h.forward
  | wins => exact hrec.trans ((becomeLeader_steady _).trans (bcastAppend_same _).steady).forward

theorem handleVoteRequest_forward (hm : m.type ≠ .preVote → m.term ≤ r.term) : Forward r (r.handleVoteRequest m) := by
  unfold handleVoteRequest
  split
  · exact (r.panic_same _).steady.forward
  simp only
  split
  · exact (r.send_same _).steady.forward
  rename_i hty
  split
  · rename_i hgrant
    have hcan : r.vote = m.sender ∨ r.vote = None := by
      simp only [Bool.and_eq_true,Bool.or_eq_true,beq_iff_eq,decide_eq_true_eq] at hgrant
      rcases hgrant.1 with (h | ⟨h,_⟩) | h
      · exact .inl h
      · exact .inr h
      · exact absurd h (Nat.not_lt.mpr (hm hty))
    refine ⟨Nat.le_refl _,?_⟩
    change m.sender = r.vote ∨ _ ∨ (_ ∧ m.sender ≠ None)
    by_cases heq : m.sender = r.vote
    · exact .inl heq
    · have hnone := hcan.resolve_left (Ne.symm heq)
      exact .inr (.inr ⟨hnone,fun h => heq (h.trans hnone.symm)⟩)
  · exact (r.send_same _).steady.forward

theorem stepCandidate_term (hm : FromLeader m) : (r.stepCandidate m).term = m.term := by
  unfold stepCandidate
  rcases hm with hty | hty | hty
  · rw [hty]
    exact (handleAppend_steady (r.becomeFollower m.term m.sender) m).term
  · rw [hty]
    rfl
  · rw [hty]
    exact (handleSnapshot_steady (r.becomeFollower m.term m.sender) m).term

/-- The message has no term, comes from a leader as it seems, and finds a candidate in some term. -/
def Termless : Prop :=
  m.term = 0 ∧ FromLeader m ∧ (r.state = .preCandidate ∨ r.state = .candidate) ∧ r.term ≠ 0

private theorem Handled.forward {r r' : Raft} {m : Message} {calls : List (Raft × Nat)} (h : Handled r m r' calls)
    (hvote : m.type = .vote → m.term ≤ r.term)
    (hlead : FromLeader m → r.state = .preCandidate ∨ r.state = .candidate → r.term ≤ m.term) : Forward r r' := by
  cases h with
  | idle => exact (Steady.refl r).forward
  | request ht => exact r.handleVoteRequest_forward m fun h => hvote (ht.resolve_left h)
  | heard _ _ hb h =>
    cases hb with
    | follower => exact Steady.forward ⟨h.steady.term,h.steady.vote⟩
    | candidate hs => exact (r.becomeFollower_forward _ (hlead h.fromLeader hs)).trans h.steady.forward
  | ballot => exact (r.handleVoteResp_balloted m).forward
  | report _ _ _ h => exact h.steady.forward

private theorem Stepped.forward {r r' : Raft} {m : Message} {calls : List (Raft × Nat)} (h : Stepped r m r' calls)
    (hn : ¬ Termless r m) : Forward r r' := by
  cases h with
  | ignored => exact (Steady.refl r).forward
  | proposed _ _ _ _ hr =>
    subst hr
    exact ((r.appendEntry_steady _).trans (bcastAppend_same _).steady).forward
  | read => exact (r.stepReadIndex_same m).steady.forward
  | sticky => exact (r.rejectSticky_same m).steady.forward
  | stale => exact (r.rejectStale_same m).steady.forward
  | role _ _ _ hp h =>
    refine h.forward (fun ht => ?_) fun hf hs => ?_
    · rcases hp with hz | heq | ⟨_,hp | ⟨hp,_⟩⟩
      · omega
      · exact heq.le
      · simp [ht] at hp
      · simp [ht] at hp
    rcases hp with hz | heq | ⟨_,hp | ⟨hp,_⟩⟩
    · -- Not termless: the candidate is in term zero itself.
      exact (not_not.mp fun hne => hn ⟨hz,hf,hs,hne⟩).le.trans (Nat.zero_le _)
    · exact heq.ge
    · exact absurd hp hf.other.2.1
    · exact absurd hp hf.other.2.2
  | adopts _ _ _ hgt _ _ h =>
    exact (r.becomeFollower_forward _ (Nat.le_of_lt hgt)).trans (h.forward (fun _ => le_rfl) fun _ _ => le_rfl)

theorem step_forward (h : ¬ Termless r m) : Forward r (r.step m).1 := (r.step_stepped m).forward h

theorem step_termless (h : Termless r m) : (r.step m).1.term < r.term := by
  obtain ⟨hzero,hf,hs,hne⟩ := h
  have hstep : (r.step m).1 = r.stepCandidate m := by
    unfold step stepRole sticky
    rcases hf with hty | hty | hty <;> rcases hs with hs | hs <;> simp [hty,hs,hzero]
  rw [hstep,r.stepCandidate_term m hf,hzero]
  omega

end Raft
end Parallax
