import Parallax.Raft.ReadSpec
import Parallax.Raft.Role

/-! What a step puts into the outbox: leaders alone send appends, heartbeats and snapshots,
heartbeats carry contexts of pending reads, and a response repeats the context it answers. -/
namespace Parallax
namespace Raft

/-- Types that `send` stamps with the sender's term when they carry none. -/
def Stamped (t : MessageType) : Prop := t ≠ .propose ∧ t ≠ .preVote ∧ t ≠ .preVoteResp

theorem stampMessage_zero (r : Raft) {m : Message} (ht : m.term = 0) (hs : Stamped m.type) :
    r.stampMessage m = { m with sender := r.id, term := r.term } := by
  obtain ⟨h1,h2,h3⟩ := hs
  unfold stampMessage
  simp only [ht,h1,ne_eq,not_false_eq_true,and_self,if_true]

theorem stampMessage_pos (r : Raft) {m : Message} (ht : m.term ≠ 0) :
    r.stampMessage m = { m with sender := r.id } := by
  unfold stampMessage
  simp [ht]

theorem stampMessage_fields (r : Raft) (m : Message) : (r.stampMessage m).type = m.type ∧
    (r.stampMessage m).context = m.context ∧ (r.stampMessage m).dest = m.dest ∧
    (r.stampMessage m).reject = m.reject ∧ (r.stampMessage m).logIndex = m.logIndex := by
  unfold stampMessage
  simp only
  split
  · split <;> exact ⟨rfl,rfl,rfl,rfl,rfl⟩
  · exact ⟨rfl,rfl,rfl,rfl,rfl⟩

/-- A leader's message of term `t`; a heartbeat carries no context or one of `queue`. -/
def LeaderMsg (t : Nat) (queue : List Bytes) (m : Message) : Prop :=
  FromLeader m ∧ m.term = t ∧ (m.type = .heartbeat → m.context = [] ∨ m.context ∈ queue)

/-- `r'` continues the leader `r` and has only sent a leader's messages. -/
structure Voices (r r' : Raft) : Prop where
  id : r'.id = r.id
  term : r'.term = r.term
  queue : r.readOnly.readIndexQueue ⊆ r'.readOnly.readIndexQueue
  msgs : ∀ m ∈ r'.msgs, m ∈ r.msgs ∨ LeaderMsg r.term r'.readOnly.readIndexQueue m
  wf : r.readOnly.WF → r'.readOnly.WF

namespace Voices

private theorem refl (r : Raft) : Voices r r := ⟨rfl,rfl,fun _ h => h,fun _ h => .inl h,fun h => h⟩

theorem of_eq {r r' : Raft} (hi : r'.id = r.id) (ht : r'.term = r.term) (hr : r'.readOnly = r.readOnly)
    (hm : r'.msgs = r.msgs) : Voices r r' :=
  ⟨hi,ht,by rw [hr]; exact fun _ h => h,fun m h => .inl (hm ▸ h),fun h => by rw [hr]; exact h⟩

theorem trans {r r' r'' : Raft} (h : Voices r r') (h' : Voices r' r'') : Voices r r'' := by
  refine ⟨h'.id.trans h.id,h'.term.trans h.term,fun _ hc => h'.queue (h.queue hc),fun m hm => ?_,
    fun hw => h'.wf (h.wf hw)⟩
  rcases h'.msgs m hm with hm | ⟨h1,h2,h3⟩
  · exact (h.msgs m hm).imp_right fun ⟨h1,h2,h3⟩ => ⟨h1,h2,fun ht => (h3 ht).imp_right fun hc => h'.queue hc⟩
  · exact .inr ⟨h1,h2.trans h.term,h3⟩

private theorem foldl {α : Type} {I : Raft → Prop} {f : Raft → α → Raft} (as : List α) :
    ∀ r : Raft, I r → (∀ r a, I r → Voices r (f r a) ∧ I (f r a)) → Voices r (as.foldl f r) := by
  induction as with
  | nil => exact fun r _ _ => refl r
  | cons a as ih => exact fun r hI hf => (hf r a hI).1.trans (ih _ (hf r a hI).2 hf)

end Voices

variable (r : Raft)

private theorem send_voices {m : Message} (hf : FromLeader m) (hz : m.term = 0)
    (hc : m.type = .heartbeat → m.context = [] ∨ m.context ∈ r.readOnly.readIndexQueue) :
    Voices r (r.send m) := by
  refine ⟨rfl,rfl,fun _ h => h,fun m' hm' => ?_,fun h => h⟩
  refine (List.mem_append.mp hm').imp_right fun h => ?_
  obtain rfl := List.mem_singleton.mp h
  rw [r.stampMessage_zero hz (by rcases hf with h | h | h <;> simp [Stamped,h])]
  exact ⟨hf,rfl,hc⟩

private theorem panic_voices (p : Panic) : Voices r (r.panic p) := .of_eq rfl rfl rfl rfl

theorem sendAppend_voices (id : Nat) : Voices r (r.sendAppend id) := by
  rcases r.sendAppend_cases id with h | ⟨p,h⟩ | ⟨m,h,ht,hz⟩ <;> rw [h]
  · exact .refl r
  · exact r.panic_voices p
  · exact r.send_voices (ht.imp_right .inr) hz fun hb => by rcases ht with ht | ht <;> rw [hb] at ht <;> cases ht

theorem bcastAppend_voices : Voices r r.bcastAppend := by
  refine Voices.foldl (I := fun _ => True) _ r trivial fun r id _ => ⟨?_,trivial⟩
  split
  · exact Voices.refl r
  · exact r.sendAppend_voices id

private theorem sendHeartbeat_voices (ctx : Bytes) (id : Nat) (hc : ctx = [] ∨ ctx ∈ r.readOnly.readIndexQueue) :
    Voices r (r.sendHeartbeat ctx id) := by
  unfold sendHeartbeat
  split
  · exact r.panic_voices _
  · exact r.send_voices (.inr (.inl rfl)) rfl fun _ => hc

private theorem bcastHeartbeatWithCtx_voices (ctx : Bytes) (hc : ctx = [] ∨ ctx ∈ r.readOnly.readIndexQueue) :
    Voices r (r.bcastHeartbeatWithCtx ctx) := by
  refine Voices.foldl (I := fun r => ctx = [] ∨ ctx ∈ r.readOnly.readIndexQueue) _ r hc fun r id hc => ?_
  split
  · exact ⟨Voices.refl r,hc⟩
  · have h := r.sendHeartbeat_voices ctx id hc
    exact ⟨h,hc.imp_right fun hc => h.queue hc⟩

private theorem bcastHeartbeat_voices (hw : r.readOnly.WF) : Voices r r.bcastHeartbeat := by
  unfold bcastHeartbeat
  split
  · exact r.panic_voices _
  rename_i ctx hctx
  refine r.bcastHeartbeatWithCtx_voices ctx ?_
  unfold ReadOnly.lastPendingRequestCtx at hctx
  split at hctx
  · exact .inl (Option.some.inj hctx).symm
  rename_i c hc
  obtain ⟨rs,hrs,rfl⟩ := Option.map_eq_some_iff.mp hctx
  rw [hw.key c rs hrs]
  exact .inr (List.mem_of_getLast? hc)

end Raft

theorem ReadOnly.mem_addRequest {ro : ReadOnly} (hw : ro.WF) (idx : Nat) (m : Message) :
    m.context ∈ (ro.addRequest idx m).readIndexQueue ∧
      ro.readIndexQueue ⊆ (ro.addRequest idx m).readIndexQueue := by
  unfold ReadOnly.addRequest
  split
  · rename_i rs hrs
    exact ⟨(hw.mem _).mpr (by rw [hrs]; rfl),fun _ h => h⟩
  · exact ⟨by simp,fun _ h => List.mem_append_left _ h⟩

@[simp] theorem ReadOnly.recvAck_queue (ro : ReadOnly) (id : Nat) (ctx : Bytes) :
    (ro.recvAck id ctx).1.readIndexQueue = ro.readIndexQueue := by
  unfold ReadOnly.recvAck
  split <;> rfl

namespace Raft
variable (r : Raft)

private theorem sendReadIndex_voices (m : Message) (hw : r.readOnly.WF) : Voices r (r.sendReadIndex m) := by
  unfold sendReadIndex
  split
  · exact .of_eq rfl rfl rfl rfl
  obtain ⟨hmem,hsub⟩ := ReadOnly.mem_addRequest hw r.raftLog.committed m
  have h₀ : Voices r { r with
      readOnly := ((r.readOnly.addRequest r.raftLog.committed m).recvAck r.id m.context).1 } :=
    ⟨rfl,rfl,by simpa using hsub,fun _ h => .inl h,fun _ => (hw.addRequest _ m).recvAck _ _⟩
  exact h₀.trans (bcastHeartbeatWithCtx_voices _ m.context (.inr (by simpa using hmem)))

private theorem releasePendingReadIndexMessages_voices (hw : r.readOnly.WF) :
    Voices r r.releasePendingReadIndexMessages := by
  unfold releasePendingReadIndexMessages
  split
  · exact Voices.refl r
  have h₀ : Voices r { r with pendingReadIndexMessages := [] } := .of_eq rfl rfl rfl rfl
  refine h₀.trans (Voices.foldl (I := fun r => r.readOnly.WF) _ _ hw fun r m hw => ?_)
  have h := r.sendReadIndex_voices m hw
  exact ⟨h,h.wf hw⟩

private theorem maybeCommit_voices (hw : r.readOnly.WF) : Voices r r.maybeCommit.1 := by
  unfold maybeCommit
  split
  · exact r.panic_voices _
  simp only
  split
  · exact r.panic_voices _
  split
  · exact Voices.refl r
  rename_i l _
  have h₀ : Voices r { r with raftLog := l } := .of_eq rfl rfl rfl rfl
  exact h₀.trans (releasePendingReadIndexMessages_voices _ hw)

theorem appendEntry_voices (es : List Entry) (hw : r.readOnly.WF) : Voices r (r.appendEntry es) := by
  unfold appendEntry
  simp only
  split
  · exact .of_eq rfl rfl rfl rfl
  rename_i pr _
  have h₀ : Voices r { r with
      raftLog := r.raftLog.append (stampEntries r.term r.raftLog.lastIndex es)
      prs := r.prs.insert r.id (pr.maybeUpdate
        (r.raftLog.append (stampEntries r.term r.raftLog.lastIndex es)).lastIndex).1 } := .of_eq rfl rfl rfl rfl
  exact h₀.trans (maybeCommit_voices _ hw)

theorem Reported.voices {r r' : Raft} {m : Message} {calls : List (Raft × Nat)} (h : Reported r m r' calls)
    (hw : r.readOnly.WF) : r' = r.handleHeartbeatResp m ∨ Voices r r' := by
  have hprs : ∀ prs, Voices r { r with prs := prs } := fun _ => .of_eq rfl rfl rfl rfl
  cases h with
  | idle => exact .inr (.refl r)
  | refused | installed => exact .inr ((hprs _).trans (sendAppend_voices _ _))
  | acked => exact .inr (hprs _)
  | held => exact .inr ((hprs _).trans (maybeCommit_voices _ hw))
  | committed pr _ _ _ _ hc =>
    have hv := maybeCommit_voices { r with prs := r.prs.insert m.sender (pr.maybeUpdate m.logIndex).1 } hw
    subst hc
    exact .inr (((hprs _).trans hv).trans (bcastAppend_voices _))
  | beat => exact .inl rfl

structure KeepsReads (r r' : Raft) : Prop where
  readOnly : r'.readOnly = r.readOnly
  pending : r'.pendingReadIndexMessages = r.pendingReadIndexMessages
  readStates : r'.readStates = r.readStates

theorem KeepsReads.refl (r : Raft) : KeepsReads r r := ⟨rfl,rfl,rfl⟩

theorem KeepsReads.trans {r r' r'' : Raft} (h : KeepsReads r r') (h' : KeepsReads r' r'') : KeepsReads r r'' :=
  ⟨h'.readOnly.trans h.readOnly,h'.pending.trans h.pending,h'.readStates.trans h.readStates⟩

theorem KeepsReads.foldl {α : Type} {f : Raft → α → Raft} (hf : ∀ r a, KeepsReads r (f r a)) (as : List α) :
    ∀ r, KeepsReads r (as.foldl f r) := by
  induction as with
  | nil => exact refl
  | cons a as ih => exact fun r => (hf r a).trans (ih _)

theorem sendAppend_keepsReads (id : Nat) : KeepsReads r (r.sendAppend id) := by
  rcases r.sendAppend_cases id with h | ⟨p,h⟩ | ⟨m,h,_⟩ <;> rw [h]
  · exact .refl r
  · exact ⟨rfl,rfl,rfl⟩
  · exact ⟨rfl,rfl,rfl⟩

theorem bcastAppend_keepsReads : KeepsReads r r.bcastAppend := by
  refine KeepsReads.foldl (fun r id => ?_) _ r
  split
  · exact .refl r
  · exact r.sendAppend_keepsReads id

theorem bcastHeartbeatWithCtx_keepsReads (ctx : Bytes) : KeepsReads r (r.bcastHeartbeatWithCtx ctx) := by
  refine KeepsReads.foldl (fun r id => ?_) _ r
  unfold sendHeartbeat
  split
  · exact .refl r
  · split <;> exact ⟨rfl,rfl,rfl⟩

theorem bcastHeartbeat_keepsReads : KeepsReads r r.bcastHeartbeat := by
  unfold bcastHeartbeat
  split
  · exact ⟨rfl,rfl,rfl⟩
  · exact r.bcastHeartbeatWithCtx_keepsReads _

theorem maybeCommit_keepsReads (hp : r.pendingReadIndexMessages = []) : KeepsReads r r.maybeCommit.1 := by
  unfold maybeCommit
  split
  · exact ⟨rfl,rfl,rfl⟩
  simp only
  split
  · exact ⟨rfl,rfl,rfl⟩
  split
  · exact .refl r
  unfold releasePendingReadIndexMessages
  simp only [hp,List.foldl_nil]
  split <;> exact ⟨rfl,by simp [hp],rfl⟩

private theorem appendEntry_keepsReads (es : List Entry) (hp : r.pendingReadIndexMessages = []) :
    KeepsReads r (r.appendEntry es) := by
  unfold appendEntry
  simp only
  split
  · exact ⟨rfl,rfl,rfl⟩
  rename_i pr _
  have h₀ : KeepsReads r { r with
      raftLog := r.raftLog.append (stampEntries r.term r.raftLog.lastIndex es)
      prs := r.prs.insert r.id (pr.maybeUpdate
        (r.raftLog.append (stampEntries r.term r.raftLog.lastIndex es)).lastIndex).1 } := ⟨rfl,rfl,rfl⟩
  exact h₀.trans (maybeCommit_keepsReads _ hp)

/-- A message that acknowledges entries. -/
def Acks (m : Message) : Prop := m.type = .appendResp ∧ m.reject = false ∧ m.logIndex ≠ 0

/-- A message that is not a leader's, answers no context of a heartbeat and acknowledges nothing. -/
def Plain (m : Message) : Prop := ¬ FromLeader m ∧ (m.type = .heartbeatResp → m.context = []) ∧ ¬ Acks m

/-- `r'` has sent plain messages only and released no read. -/
structure Plainly (r r' : Raft) : Prop where
  msgs : ∀ m ∈ r'.msgs, m ∈ r.msgs ∨ Plain m
  readStates : r'.readStates = r.readStates

namespace Plainly

private theorem of_eq {r r' : Raft} (hm : r'.msgs = r.msgs) (hr : r'.readStates = r.readStates) : Plainly r r' :=
  ⟨fun _ h => .inl (hm ▸ h),hr⟩

private theorem refl (r : Raft) : Plainly r r := .of_eq rfl rfl

private theorem trans {r r' r'' : Raft} (h : Plainly r r') (h' : Plainly r' r'') : Plainly r r'' :=
  ⟨fun m hm => (h'.msgs m hm).elim (h.msgs m) .inr,h'.readStates.trans h.readStates⟩

private theorem foldl {α : Type} {f : Raft → α → Raft} (hf : ∀ r a, Plainly r (f r a)) (as : List α) :
    ∀ r, Plainly r (as.foldl f r) := by
  induction as with
  | nil => exact refl
  | cons a as ih => exact fun r => (hf r a).trans (ih _)

end Plainly

private theorem send_plainly {m : Message} (hf : ¬ FromLeader m) (hc : m.type = .heartbeatResp → m.context = [])
    (ha : ¬ Acks m) : Plainly r (r.send m) := by
  refine ⟨fun m' hm' => (List.mem_append.mp hm').imp_right fun h => ?_,rfl⟩
  obtain rfl := List.mem_singleton.mp h
  obtain ⟨h1,h2,_,h4,h5⟩ := r.stampMessage_fields m
  unfold Plain FromLeader Acks
  rw [h1,h2,h4,h5]
  exact ⟨hf,hc,ha⟩

private theorem panic_plainly (p : Panic) : Plainly r (r.panic p) := .of_eq rfl rfl

theorem becomeFollower_plainly (term lead : Nat) : Plainly r (r.becomeFollower term lead) := .of_eq rfl rfl

theorem handleSnapshot_plainly (m : Message) : Plainly r (r.handleSnapshot m) := by
  unfold handleSnapshot
  split
  · exact .refl r
  rename_i snap _
  have h : Plainly r (r.restore snap).1 := by
    unfold restore
    split
    · exact .refl r
    · split <;> exact .of_eq rfl rfl
  split <;> rename_i r' heq <;> rw [heq] at h <;>
    exact h.trans (send_plainly _ (by simp [FromLeader]) (by simp) (by simp [Acks]))

theorem handleVoteRequest_plainly (m : Message) : Plainly r (r.handleVoteRequest m) := by
  unfold handleVoteRequest
  split
  · exact .of_eq rfl rfl
  simp only
  split
  · exact r.send_plainly (by simp [FromLeader]) (by simp) (by simp [Acks])
  split
  · have h₀ : Plainly r { r with vote := m.sender, electionElapsed := 0 } := .of_eq rfl rfl
    exact h₀.trans (send_plainly _ (by simp [FromLeader]) (by simp) (by simp [Acks]))
  · exact r.send_plainly (by simp [FromLeader]) (by simp) (by simp [Acks])

theorem rejectSticky_plainly (m : Message) : Plainly r (r.rejectSticky m) := by
  unfold rejectSticky
  split <;> exact r.send_plainly (by simp [FromLeader]) (by simp) (by simp [Acks])

theorem rejectStale_plainly (m : Message) : Plainly r (r.rejectStale m) := by
  unfold rejectStale
  split <;> rename_i ht
  · exact r.send_plainly (by simp [FromLeader,msgRespType,ht]) (fun _ => rfl) (by simp [Acks])
  · exact r.send_plainly (by simp [FromLeader,msgRespType,ht]) (fun _ => rfl) (by simp [Acks])
  · exact r.send_plainly (by simp [FromLeader,msgRespType,ht]) (fun _ => rfl) (by simp [Acks])
  · exact r.send_plainly (by simp [FromLeader]) (by simp) (by simp [Acks])
  · exact .refl r

private theorem recordVote_plainly (id : Nat) (granted : Bool) : Plainly r (r.recordVote id granted) := by
  unfold recordVote
  split <;> exact .of_eq rfl rfl

private theorem becomeCandidate_plainly : Plainly r r.becomeCandidate := by
  unfold becomeCandidate
  split <;> exact .of_eq rfl rfl

private theorem becomePreCandidate_plainly : Plainly r r.becomePreCandidate := by
  unfold becomePreCandidate
  split <;> exact .of_eq rfl rfl

private theorem Solicits.plainly {r r' : Raft} (h : Solicits r r') : Plainly r r' := by
  obtain ⟨ms,p,rfl,hm⟩ := h
  refine ⟨fun m h => (List.mem_append.mp h).imp_right fun h => ?_,rfl⟩
  rcases hm m h with h | h <;> simp [Plain,FromLeader,Acks,h]

/-- What a node that did not lead may show afterwards. -/
structure Emerges (r r' : Raft) : Prop where
  msgs : ∀ m ∈ r'.msgs, m ∈ r.msgs ∨ Plain m ∨ (r'.state = .leader ∧ LeaderMsg r'.term r'.readOnly.readIndexQueue m)
  readStates : r'.readStates = r.readStates
  new : r'.state = .leader → r'.readOnly = {} ∧ r'.pendingReadIndexMessages = []

theorem Plainly.emerges {r r' : Raft} (h : Plainly r r') (hs : r'.state ≠ .leader) : Emerges r r' :=
  ⟨fun m hm => (h.msgs m hm).imp_right .inl,h.readStates,fun h => absurd h hs⟩

theorem Emerges.after {r r' r'' : Raft} (h' : Emerges r' r'') (h : Plainly r r') : Emerges r r'' :=
  ⟨fun m hm => (h'.msgs m hm).elim (fun hm => (h.msgs m hm).imp_right .inl) .inr,
    h'.readStates.trans h.readStates,h'.new⟩

private theorem becomeLeader_emerges (hs : r.state ≠ .follower) : Emerges r r.becomeLeader := by
  obtain ⟨h1,h2,_⟩ := r.becomeLeader_role hs
  unfold becomeLeader at h1 h2 ⊢
  rw [if_neg hs] at h1 h2 ⊢
  have hv := appendEntry_voices { r.reset r.term with lead := r.id, state := .leader } [{ type := .noop }]
    ReadOnly.WF.empty
  have hk := appendEntry_keepsReads { r.reset r.term with lead := r.id, state := .leader } [{ type := .noop }] rfl
  refine ⟨fun m hm => ?_,hk.readStates,fun _ => ⟨hk.readOnly,hk.pending⟩⟩
  rcases hv.msgs m hm with hm | hm
  · exact .inl hm
  · exact .inr (.inr ⟨h1,by rw [h2]; exact hm⟩)

theorem Emerges.bcastAppend {r r' : Raft} (h : Emerges r r') (hl : r'.state = .leader) :
    Emerges r r'.bcastAppend := by
  have hs := r'.bcastAppend_same
  have hv := r'.bcastAppend_voices
  have hk := r'.bcastAppend_keepsReads
  refine ⟨fun m hm => ?_,hk.readStates.trans h.readStates,fun _ => ?_⟩
  · rw [hs.state,hs.term,hk.readOnly]
    rcases hv.msgs m hm with hm | hm
    · exact h.msgs m hm
    · rw [hk.readOnly] at hm
      exact .inr (.inr ⟨hl,hm⟩)
  · rw [hk.readOnly,hk.pending]
    exact h.new hl

variable {r' : Raft}

private theorem Stands.emerges {r : Raft} (h : Stands r r') (hs : r.state ≠ .leader) : Emerges r r' := by
  have hp := r.becomeCandidate_plainly.trans (r.becomeCandidate.recordVote_plainly r.becomeCandidate.id true)
  cases h with
  | asks r₁ _ hr h =>
    exact ((hr ▸ hp).trans h.plainly).emerges (by rw [h.same.state,(r.stood_role hs hr).1]; simp)
  | wins r₁ hr => exact (r₁.becomeLeader_emerges (by rw [(r.stood_role hs hr).1]; simp)).after (hr ▸ hp)

private theorem Campaigned.emerges {r : Raft} (h : Campaigned r r') (hs : r.state ≠ .leader) : Emerges r r' := by
  have hp := r.becomePreCandidate_plainly.trans
    (r.becomePreCandidate.recordVote_plainly r.becomePreCandidate.id true)
  cases h with
  | probes r₁ _ hr _ h =>
    exact ((hr ▸ hp).trans h.plainly).emerges (by rw [h.same.state,(r.probed_role hs hr).1]; simp)
  | passes r₁ _ hr _ h => exact (h.emerges (by rw [(r.probed_role hs hr).1]; simp)).after (hr ▸ hp)
  | stands _ _ h => exact h.emerges hs

private theorem Balloted.emerges {r : Raft} {v : Nat} {g : Bool} {calls : List (Raft × Nat)}
    (h : Balloted r (r.recordVote v g) r' calls) (hs : r.state = .preCandidate ∨ r.state = .candidate) : Emerges r r' := by
  have hp := r.recordVote_plainly v g
  have hne : (r.recordVote v g).state ≠ .leader ∧ (r.recordVote v g).state ≠ .follower := by
    rw [(r.recordVote_role v g).2.2.1]
    rcases hs with hs | hs <;> simp [hs]
  cases h with
  | waits => exact hp.emerges hne.1
  | retires => exact (hp.trans (becomeFollower_plainly _ _ _)).emerges (by simp [becomeFollower])
  | stands _ _ _ h => exact (h.emerges hne.1).after hp
  | wins => exact ((becomeLeader_emerges _ hne.2).bcastAppend (becomeLeader_role _ hne.2).1).after hp

/-- The outbox, and the reads of a node that did not lead through the step. -/
structure Posts (r : Raft) (i : Option Message) (r' : Raft) : Prop where
  leader : ∀ m ∈ r'.msgs, FromLeader m → r'.state = .leader ∧ LeaderMsg r'.term r'.readOnly.readIndexQueue m
  resp : ∀ m ∈ r'.msgs, m.type = .heartbeatResp → m.context = [] ∨ ∃ m₀, i = some m₀ ∧ m₀.type = .heartbeat ∧
    m.context = m₀.context ∧ m.dest = m₀.sender ∧ m.term = m₀.term ∧ r'.term = m₀.term
  acks : ∀ m ∈ r'.msgs, Acks m → ∃ m₀, i = some m₀ ∧ m₀.type = .append ∧ m₀.term = r'.term ∧ m.term = r'.term ∧
    (r'.raftLog = r.raftLog ∧ m.logIndex = r.raftLog.committed ∨ r.raftLog.committed ≤ m₀.logIndex ∧
      r.raftLog.maybeAppend m₀.logIndex m₀.logTerm m₀.commit m₀.entries = (r'.raftLog,some m.logIndex))
  new : r.state ≠ .leader → r'.state = .leader → r'.readOnly = {} ∧ r'.pendingReadIndexMessages = []
  quiet : r.state ≠ .leader ∨ r'.state ≠ .leader → r'.readStates = r.readStates

variable {r}
variable {i : Option Message}

theorem Plainly.posts {r' : Raft} (h : Plainly r r') (hm : r.msgs = []) (hs : r'.state = .leader → r.state = .leader) :
    Posts r i r' where
  leader m hm' hf := by
    rcases h.msgs m hm' with h | h
    · rw [hm] at h
      cases h
    · exact absurd hf h.1
  resp m hm' ht := by
    rcases h.msgs m hm' with h | h
    · rw [hm] at h
      cases h
    · exact .inl (h.2.1 ht)
  acks m hm' ha := by
    rcases h.msgs m hm' with h | h
    · rw [hm] at h
      cases h
    · exact absurd ha h.2.2
  new h1 h2 := absurd (hs h2) h1
  quiet _ := h.readStates

theorem Emerges.posts {r' : Raft} (h : Emerges r r') (hm : r.msgs = []) : Posts r i r' where
  leader m hm' hf := by
    rcases h.msgs m hm' with h | h | h
    · rw [hm] at h
      cases h
    · exact absurd hf h.1
    · exact h
  resp m hm' ht := by
    rcases h.msgs m hm' with h | h | ⟨_,h,_⟩
    · rw [hm] at h
      cases h
    · exact .inl (h.2.1 ht)
    · simp [FromLeader,ht] at h
  acks m hm' ha := by
    rcases h.msgs m hm' with h | h | ⟨_,h,_⟩
    · rw [hm] at h
      cases h
    · exact absurd ha h.2.2
    · simp [FromLeader,ha.1] at h
  new _ := h.new
  quiet _ := h.readStates

theorem Voices.posts {r' : Raft} (h : Voices r r') (hm : r.msgs = []) (hs : r.state = .leader)
    (hs' : r'.state = .leader) : Posts r i r' where
  leader m hm' _ := by
    rcases h.msgs m hm' with h' | h'
    · rw [hm] at h'
      cases h'
    · exact ⟨hs',by rw [h.term]; exact h'⟩
  resp m hm' ht := by
    rcases h.msgs m hm' with h | ⟨h,_⟩
    · rw [hm] at h
      cases h
    · simp [FromLeader,ht] at h
  acks m hm' ha := by
    rcases h.msgs m hm' with h | ⟨h,_⟩
    · rw [hm] at h
      cases h
    · simp [FromLeader,ha.1] at h
  new h1 _ := absurd hs h1
  quiet hn := hn.elim (absurd hs) (absurd hs')

theorem handleHeartbeat_posts (r : Raft) {m : Message} (hm : r.msgs = []) (hi : i = some m) (ht : m.type = .heartbeat)
    (hterm : m.term = r.term) (hs : r.state ≠ .leader) : Posts r i (r.handleHeartbeat m) := by
  have hst : (r.handleHeartbeat m).msgs =
      [{ type := .heartbeatResp, dest := m.sender, context := m.context, sender := r.id, term := r.term }] := by
    simp [handleHeartbeat,send,hm,stampMessage]
  have hk := r.handleHeartbeat_keeps m
  refine ⟨fun m' hm' hf => ?_,fun m' hm' _ => ?_,fun m' hm' ha => ?_,fun _ h => ?_,fun _ => rfl⟩
  · rw [hst] at hm'
    obtain rfl := List.mem_singleton.mp hm'
    simp [FromLeader] at hf
  · rw [hst] at hm'
    obtain rfl := List.mem_singleton.mp hm'
    exact .inr ⟨m,hi,ht,rfl,rfl,hterm.symm,by rw [hk.term,hterm]⟩
  · rw [hst] at hm'
    obtain rfl := List.mem_singleton.mp hm'
    simp [Acks] at ha
  · rw [hk.state] at h
    exact absurd h hs

theorem findConflictByTerm_le (r : Raft) (term i : Nat) : (r.findConflictByTerm i term).1 ≤ i := by
  induction i with
  | zero => exact le_rfl
  | succ i ih =>
    unfold findConflictByTerm
    split
    · exact le_rfl
    split
    · exact le_rfl
    · exact ih.trans (Nat.le_succ i)

theorem handleAppend_posts (r : Raft) {m : Message} (hm : r.msgs = []) (hi : i = some m) (ht : m.type = .append)
    (hterm : m.term = r.term) (hs : r.state ≠ .leader) : Posts r i (r.handleAppend m) := by
  have hk := r.handleAppend_keeps m
  have hone : ∃ (r₁ : Raft) (a : Message), r.handleAppend m = r₁.send a ∧ r₁.msgs = [] ∧ r₁.term = r.term ∧
      r₁.readStates = r.readStates ∧ a.type = .appendResp ∧ a.term = 0 ∧ (a.reject = false →
        r₁.raftLog = r.raftLog ∧ a.logIndex = r.raftLog.committed ∨ r.raftLog.committed ≤ m.logIndex ∧
          r.raftLog.maybeAppend m.logIndex m.logTerm m.commit m.entries = (r₁.raftLog,some a.logIndex)) := by
    unfold handleAppend
    split
    · exact ⟨r,_,rfl,hm,rfl,rfl,rfl,rfl,fun _ => .inl ⟨rfl,rfl⟩⟩
    rename_i hge
    split
    · rename_i l k heq
      exact ⟨{ r with raftLog := l },_,rfl,hm,rfl,rfl,rfl,rfl,fun _ => .inr ⟨by omega,heq⟩⟩
    · exact ⟨r,_,rfl,hm,rfl,rfl,rfl,rfl,fun h => nomatch h⟩
  obtain ⟨r₁,a,heq,hm₁,ht₁,hr₁,hty,hz,ha⟩ := hone
  have hmsgs : (r.handleAppend m).msgs = [{ a with sender := r₁.id, term := r₁.term }] := by
    rw [heq,send,r₁.stampMessage_zero hz (by simp [Stamped,hty]),hm₁]
    rfl
  refine ⟨fun m' hm' hf => ?_,fun m' hm' h => ?_,fun m' hm' h => ?_,fun _ h => ?_,fun _ => ?_⟩
  · rw [hmsgs] at hm'
    obtain rfl := List.mem_singleton.mp hm'
    simp [FromLeader,hty] at hf
  · rw [hmsgs] at hm'
    obtain rfl := List.mem_singleton.mp hm'
    simp [hty] at h
  · rw [hmsgs] at hm'
    obtain rfl := List.mem_singleton.mp hm'
    rw [heq]
    exact ⟨m,hi,ht,hterm.trans ht₁.symm,rfl,ha h.2.1⟩
  · rw [hk.state] at h
    exact absurd h hs
  · rw [heq]
    exact hr₁

theorem Posts.before {r r₁ r' : Raft} (h : Posts r₁ i r') (hlog : r₁.raftLog = r.raftLog)
    (hr : r₁.readStates = r.readStates) (hl : r₁.state ≠ .leader) : Posts r i r' where
  leader := h.leader
  resp := h.resp
  acks := hlog ▸ h.acks
  new _ := h.new hl
  quiet _ := (h.quiet (.inl hl)).trans hr

theorem catchUp_msgs (r : Raft) (id : Nat) : ∀ m ∈ (r.catchUp id).msgs, m ∈ r.msgs ∨
    ((m.type = .append ∨ m.type = .installSnapshot) ∧ m.term = r.term) := by
  intro m' hm'
  unfold catchUp at hm'
  split at hm'
  · exact .inl hm'
  split at hm'
  · rcases r.sendAppend_cases id with h | ⟨p,h⟩ | ⟨m,h,ht,hz⟩ <;> rw [h] at hm'
    · exact .inl hm'
    · exact .inl hm'
    refine (List.mem_append.mp hm').imp_right fun hm' => ?_
    obtain rfl := List.mem_singleton.mp hm'
    rw [r.stampMessage_zero hz (by rcases ht with h | h <;> simp [Stamped,h])]
    exact ⟨ht,rfl⟩
  · exact .inl hm'

private theorem handleHeartbeatResp_posts (r : Raft) (m : Message) (hm : r.msgs = []) (hs : r.state = .leader) :
    Posts r i (r.handleHeartbeatResp m) := by
  have hsame := r.handleHeartbeatResp_same m
  have hmsgs : ∀ m' ∈ (r.handleHeartbeatResp m).msgs,
      (m'.type = .append ∨ m'.type = .installSnapshot) ∧ m'.term = r.term := by
    intro m' hm'
    rw [handleHeartbeatResp,confirmReads_msgs] at hm'
    refine (r.catchUp_msgs m.sender m' hm').resolve_left fun h => ?_
    rw [hm] at h
    cases h
  refine ⟨fun m' hm' hf => ?_,fun m' hm' ht => ?_,fun m' hm' ha => ?_,fun h => absurd hs h,fun h => ?_⟩
  · obtain ⟨h1,h2⟩ := hmsgs m' hm'
    exact ⟨hsame.state.trans hs,hf,h2.trans hsame.term.symm,fun ht => by rcases h1 with h | h <;> simp [ht] at h⟩
  · rcases (hmsgs m' hm').1 with h | h <;> simp [ht] at h
  · rcases (hmsgs m' hm').1 with h | h <;> simp [ha.1] at h
  · exact h.elim (absurd hs) (absurd (hsame.state.trans hs))

private theorem stepReadIndex_posts (r : Raft) (m : Message) (hm : r.msgs = []) (hw : r.readOnly.WF) :
    Posts r i (r.stepReadIndex m).1 := by
  unfold stepReadIndex
  split
  · exact (Plainly.refl r).posts hm fun h => h
  rename_i hs
  have hs' : r.state = .leader := by simpa using hs
  split
  · exact (r.sendReadIndex_voices m hw).posts hm hs' ((r.sendReadIndex_same m).state.trans hs')
  · exact (Voices.of_eq rfl rfl rfl rfl : Voices r { r with
      pendingReadIndexMessages := r.pendingReadIndexMessages ++ [m] }).posts hm hs' hs'

section ways
variable {m : Message} {calls : List (Raft × Nat)}

private theorem Heard.posts (h : Heard r m r') (hm : r.msgs = []) (hterm : m.term = r.term) (hs : r.state ≠ .leader) :
    Posts r (some m) r' := by
  have hst := h.keeps.state
  cases h with
  | append ht => exact r.handleAppend_posts hm rfl ht hterm hs
  | heartbeat ht => exact r.handleHeartbeat_posts hm rfl ht hterm hs
  | snapshot => exact (r.handleSnapshot_plainly m).posts hm fun h => hst ▸ h

private theorem Handled.posts (h : Handled r m r' calls) (hm : r.msgs = []) (hw : r.readOnly.WF)
    (hterm : FromLeader m → m.term = r.term) : Posts r (some m) r' := by
  cases h with
  | idle => exact (Plainly.refl r).posts hm fun h => h
  | request => exact (r.handleVoteRequest_plainly m).posts hm fun h => (r.handleVoteRequest_keeps m).state ▸ h
  | heard r₁ _ hb h =>
    have heq := hterm h.fromLeader
    obtain ⟨_,hlog,hmsgs,hreads⟩ := hb.kept
    have hne : r₁.state ≠ .leader := by
      rw [hb.state]
      simp
    exact (h.posts (hmsgs.trans hm) (heq.trans (hb.follows heq).1.symm) hne).before hlog hreads hne
  | ballot hs => exact ((r.handleVoteResp_balloted m).emerges (hs.imp (·.1) (·.1))).posts hm
  | report _ _ hs h =>
    rcases h.voices hw with rfl | hv
    · exact r.handleHeartbeatResp_posts m hm hs
    · exact hv.posts hm hs (h.keeps.state.trans hs)

private theorem Stepped.posts (h : Stepped r m r' calls) (hm : r.msgs = []) (hw : r.readOnly.WF)
    (hpos : m.type = .propose ∨ m.type = .readIndex ∨ 0 < m.term) : Posts r (some m) r' := by
  cases h with
  | ignored => exact (Plainly.refl r).posts hm fun h => h
  | proposed _ _ hs _ hr =>
    subst hr
    exact ((r.appendEntry_voices _ hw).trans (bcastAppend_voices _)).posts hm hs
      (((r.appendEntry_keeps _).trans (bcastAppend_same _).keeps).state.trans hs)
  | read => exact r.stepReadIndex_posts m hm hw
  | sticky => exact (r.rejectSticky_plainly m).posts hm fun h => (r.rejectSticky_same m).state ▸ h
  | stale => exact (r.rejectStale_plainly m).posts hm fun h => (r.rejectStale_same m).state ▸ h
  | role _ _ hloc hp h => exact h.posts hm hw (hp.fromLeader hloc hpos)
  | adopts _ _ _ _ _ _ h =>
    exact (h.posts hm ReadOnly.WF.empty fun _ => rfl).before rfl rfl (by simp [becomeFollower])

end ways

theorem step_posts (r : Raft) {m : Message} (hm : r.msgs = []) (hw : r.readOnly.WF)
    (hpos : m.type = .propose ∨ m.type = .readIndex ∨ 0 < m.term) : Posts r (some m) (r.step m).1 :=
  (r.step_stepped m).posts hm hw hpos

private theorem Ticked.posts (h : Ticked r r') (hm : r.msgs = []) (hw : r.readOnly.WF) : Posts r none r' := by
  cases h with
  | beats hs =>
    have h₀ : Voices r { r with heartbeatElapsed := 0 } := .of_eq rfl rfl rfl rfl
    exact (h₀.trans (bcastHeartbeat_voices _ hw)).posts hm hs ((bcastHeartbeat_same _).state.trans hs)
  | waits b e =>
    have h₀ : Plainly r { r with heartbeatElapsed := b, electionElapsed := e } := .of_eq rfl rfl
    exact h₀.posts hm fun h => h
  | campaigns _ hs h => exact (h.emerges hs).posts hm

theorem tick_posts (r : Raft) (hm : r.msgs = []) (hw : r.readOnly.WF) : Posts r none r.tick := r.tick_ticked.posts hm hw

end Raft
end Parallax
