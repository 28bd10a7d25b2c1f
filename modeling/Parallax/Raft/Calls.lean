import Parallax.Raft.Effect
import Parallax.Raft.Moves
import Parallax.Raft.Outbox

/-! The calls of `sendAppend` an input makes. Between the first of them and the end of the input only the outbox
and the reads change, and appends and snapshots are sent nowhere else. -/
namespace Parallax
namespace Raft

private theorem sendAppend_msgs_grow (r : Raft) (id : Nat) : r.msgs <+: (r.sendAppend id).msgs := by
  rcases r.sendAppend_cases id with h | ⟨p,h⟩ | ⟨m,h,_⟩ <;> rw [h]
  · exact List.prefix_rfl
  · exact List.prefix_append _ _

/-- At the call `c` the core is, up to outbox and reads, the one that `r'` is in the end; it leads and knows the
follower, its pending snapshot is still that of `r`, and what the call queues is still queued in the end. -/
structure CallIn (r r' : Raft) (c : Raft × Nat) : Prop where
  same : Same c.1 r'
  state : c.1.state = .leader
  snapshot : c.1.raftLog.unstable.snapshot = r.raftLog.unstable.snapshot
  ne : c.2 ≠ r.id
  known : c.2 ∈ r'.peers ∨ (c.1.prs.lookup c.2).isSome
  queued : (c.1.sendAppend c.2).msgs <+: r'.msgs

def CallsIn (r r' : Raft) (calls : List (Raft × Nat)) : Prop := ∀ c ∈ calls, CallIn r r' c

theorem CallsIn.nil {r r' : Raft} : CallsIn r r' [] := fun _ hc => absurd hc List.not_mem_nil

theorem CallIn.before {r r₁ r' : Raft} {c : Raft × Nat} (h : CallIn r₁ r' c)
    (hs : r₁.raftLog.unstable.snapshot = r.raftLog.unstable.snapshot) (hi : r₁.id = r.id) : CallIn r r' c :=
  ⟨h.same,h.state,h.snapshot.trans hs,hi ▸ h.ne,h.known,h.queued⟩

theorem CallsIn.before {r r₁ r' : Raft} {calls : List (Raft × Nat)} (h : CallsIn r₁ r' calls)
    (hs : r₁.raftLog.unstable.snapshot = r.raftLog.unstable.snapshot) (hi : r₁.id = r.id) : CallsIn r r' calls :=
  fun c hc => (h c hc).before hs hi

theorem sendAppend_call {r : Raft} (hs : r.state = .leader) {id : Nat} (hne : id ≠ r.id) (pr : Progress) :
    CallsIn r ({ r with prs := r.prs.insert id pr }.sendAppend id) [({ r with prs := r.prs.insert id pr },id)] := by
  intro c hc
  obtain rfl := List.mem_singleton.mp hc
  exact ⟨sendAppend_same _ _,hs,rfl,hne,.inr (by rw [AList.lookup_insert]; rfl),List.prefix_rfl⟩

private theorem bcastCalls_in (ids : List Nat) : ∀ r : Raft, r.state = .leader → ids ⊆ r.peers →
    CallsIn r (ids.foldl (fun r id => if id = r.id then r else r.sendAppend id) r) (r.bcastCalls ids) ∧
    r.msgs <+: (ids.foldl (fun r id => if id = r.id then r else r.sendAppend id) r).msgs := by
  induction ids with
  | nil => exact fun _ _ _ => ⟨.nil,List.prefix_rfl⟩
  | cons id ids ih =>
    intro r hs hsub
    obtain ⟨hid,hids⟩ := List.cons_subset.mp hsub
    unfold bcastCalls
    rw [List.foldl_cons]
    split
    · exact ih r hs hids
    rename_i hne
    have hsame := r.sendAppend_same id
    obtain ⟨hin,hgrow⟩ := ih _ (hsame.state.trans hs) (by rwa [hsame.peers])
    refine ⟨fun c hc => ?_,(r.sendAppend_msgs_grow id).trans hgrow⟩
    rcases List.mem_cons.mp hc with rfl | hc
    · have hall := hsame.trans (Same.foldl (f := fun r id => if id = r.id then r else r.sendAppend id) (fun r id => by
        split
        · exact .refl r
        · exact r.sendAppend_same id) ids _)
      exact ⟨hall,hs,rfl,hne,.inl (by rw [hall.peers]; exact hid),hgrow⟩
    · exact (hin c hc).before (by rw [hsame.raftLog]) hsame.id

private theorem bcastAppend_calls {r : Raft} (hs : r.state = .leader) : CallsIn r r.bcastAppend (r.bcastCalls r.peers) :=
  (bcastCalls_in r.peers r hs (List.Subset.refl _)).1

private theorem append_snapshot (l : RaftLog) (es : List Entry) :
    (l.append es).unstable.snapshot = l.unstable.snapshot := by
  unfold RaftLog.append
  split
  · rename_i u hu
    unfold Unstable.truncateAppend at hu
    split at hu
    · obtain rfl := Option.some.inj hu
      rfl
    · dsimp only at hu
      split_ifs at hu <;> obtain rfl := Option.some.inj hu <;> rfl
  · rfl

private theorem Reported.callsIn {r r' : Raft} {m : Message} {calls : List (Raft × Nat)} (h : Reported r m r' calls)
    (hs : r.state = .leader) (hne : m.sender ≠ r.id) : CallsIn r r' calls := by
  cases h with
  | idle | acked | held => exact .nil
  | refused | installed => exact sendAppend_call hs hne _
  | committed pr _ _ _ _ hc =>
    have hq := maybeCommit_quiet { r with prs := r.prs.insert m.sender (pr.maybeUpdate m.logIndex).1 }
    have hk := maybeCommit_keeps { r with prs := r.prs.insert m.sender (pr.maybeUpdate m.logIndex).1 }
    subst hc
    exact (bcastAppend_calls (hk.state.trans hs)).before (congrArg (·.snapshot) hq.unstable) hq.id
  | beat =>
    unfold handleHeartbeatResp catchUp catchUpCalls
    cases hpr : r.prs.lookup m.sender with
    | none => exact .nil
    | some pr =>
      dsimp only
      split
      · intro c hc
        obtain rfl := List.mem_singleton.mp hc
        exact ⟨(sendAppend_same _ _).trans (confirmReads_same _ m),hs,rfl,hne,.inr (by rw [hpr]; rfl),
          by rw [confirmReads_msgs]⟩
      · exact .nil

private theorem Balloted.callsIn {r r' : Raft} {v : Nat} {g : Bool} {calls : List (Raft × Nat)}
    (h : Balloted r (r.recordVote v g) r' calls) (hs : r.state = .preCandidate ∨ r.state = .candidate) :
    CallsIn r r' calls := by
  obtain ⟨_,_,hst,_⟩ := r.recordVote_role v g
  have hq := r.recordVote_quiet v g
  cases h with
  | waits | retires | stands => exact .nil
  | wins =>
    obtain ⟨hk,hlead,_,_,_,hu,_⟩ := becomeLeader_effect (r.recordVote v g)
      (by rw [hst]; rcases hs with hs | hs <;> simp [hs])
    exact (bcastAppend_calls hlead).before (by rw [hu,append_snapshot,hq.unstable]) (hk.id.trans hq.id)

private theorem Handled.callsIn {r r' : Raft} {m : Message} {calls : List (Raft × Nat)} (h : Handled r m r' calls)
    (hne : m.sender ≠ r.id) : CallsIn r r' calls := by
  cases h with
  | idle | request | heard => exact .nil
  | ballot hs => exact (r.handleVoteResp_balloted m).callsIn (hs.imp (·.1) (·.1))
  | report _ _ hs h => exact h.callsIn hs hne

private theorem Stepped.callsIn {r r' : Raft} {m : Message} {calls : List (Raft × Nat)} (h : Stepped r m r' calls)
    (hne : m.type ≠ .propose → m.type ≠ .readIndex → m.sender ≠ r.id) : CallsIn r r' calls := by
  cases h with
  | ignored | read | sticky | stale => exact .nil
  | proposed _ _ hs _ hr =>
    obtain ⟨hk,hlead,_,_,_,hu,_⟩ := appendEntry_effect r hs (m.entries.map fun e => { e with type := .normal })
    subst hr
    exact (bcastAppend_calls hlead).before (by rw [hu,append_snapshot]) hk.id
  | role _ _ hloc _ h => exact h.callsIn (hne hloc.1 hloc.2)
  | adopts _ _ hloc _ _ _ h => exact (h.callsIn (hne hloc.1 hloc.2)).before rfl rfl

/-- No answer comes from the node itself: it sends itself nothing. -/
theorem step_calls (r : Raft) {m : Message} (hne : m.type ≠ .propose → m.type ≠ .readIndex → m.sender ≠ r.id) :
    CallsIn r (r.step m).1 (r.stepCalls m) :=
  (r.step_stepped m).callsIn hne

/-- Messages with a part of the log. -/
def Carries (m : Message) : Prop := m.type = .append ∨ m.type = .installSnapshot

/-- What `sendAppend` queued. -/
def Queues (c : Raft × Nat) (m : Message) : Prop := (c.1.sendAppend c.2).msgs = c.1.msgs ++ [m]

/-- From `r` to `r'` parts of the log went out only through `calls`. -/
def SentBy (calls : List (Raft × Nat)) (r r' : Raft) : Prop :=
  ∀ m ∈ r'.msgs, m ∈ r.msgs ∨ ¬ Carries m ∨ ∃ c ∈ calls, Queues c m

namespace SentBy

private theorem of_msgs {r r' : Raft} (h : r'.msgs = r.msgs) (calls : List (Raft × Nat)) : SentBy calls r r' :=
  fun _ hm => .inl (h ▸ hm)

private theorem append {calls calls' : List (Raft × Nat)} {r r' r'' : Raft} (h : SentBy calls r r')
    (h' : SentBy calls' r' r'') :
    SentBy (calls ++ calls') r r'' := by
  intro m hm
  rcases h' m hm with hm | hm | ⟨c,hc,hq⟩
  · rcases h m hm with hm | hm | ⟨c,hc,hq⟩
    · exact .inl hm
    · exact .inr (.inl hm)
    · exact .inr (.inr ⟨c,List.mem_append_left _ hc,hq⟩)
  · exact .inr (.inl hm)
  · exact .inr (.inr ⟨c,List.mem_append_right _ hc,hq⟩)

/-- A silent part before. -/
theorem after {calls : List (Raft × Nat)} {r r' r'' : Raft} (h' : SentBy calls r' r'') (h : SentBy [] r r') :
    SentBy calls r r'' :=
  h.append h'

end SentBy

theorem Plainly.sentBy {r r' : Raft} (h : Plainly r r') : SentBy [] r r' := by
  refine fun m hm => (h.msgs m hm).imp_right fun hp => .inl fun hc => hp.1 ?_
  exact hc.elim .inl fun hc => .inr (.inr hc)

/-- The answers to messages with a part of the log. -/
def Reports (m : Message) : Prop := m.type = .appendResp ∨ m.type = .installSnapshotResp

/-- A message that has nothing to do with the log's contents, and answers no probe. -/
def Aside (m : Message) : Prop := ¬ Carries m ∧ ¬ Reports m ∧ m.type ≠ .preVoteResp

/-- Only such messages went out. -/
def Asides (r r' : Raft) : Prop := ∀ m ∈ r'.msgs, m ∈ r.msgs ∨ Aside m

namespace Asides

theorem of_msgs {r r' : Raft} (h : r'.msgs = r.msgs) : Asides r r' := fun _ hm => .inl (h ▸ hm)

theorem after {r r' r'' : Raft} (h' : Asides r' r'') (h : Asides r r') : Asides r r'' :=
  fun m hm => (h' m hm).elim (h m) .inr

private theorem foldl {α : Type} {f : Raft → α → Raft} (hf : ∀ r a, Asides r (f r a)) (as : List α) :
    ∀ r, Asides r (as.foldl f r) := by
  induction as with
  | nil => exact fun r => .of_msgs rfl
  | cons a as ih => exact fun r => (ih _).after (hf r a)

theorem sentBy {r r' : Raft} (h : Asides r r') : SentBy [] r r' := fun m hm => (h m hm).imp_right fun h => .inl h.1

end Asides

theorem send_asides (r : Raft) {m : Message} (hm : Aside m) : Asides r (r.send m) := by
  intro m' hm'
  refine (List.mem_append.mp hm').imp_right fun h => ?_
  obtain rfl := List.mem_singleton.mp h
  unfold Aside Carries Reports
  rwa [(r.stampMessage_fields m).1]

private theorem sendHeartbeat_asides (r : Raft) (ctx : Bytes) (id : Nat) : Asides r (r.sendHeartbeat ctx id) := by
  unfold sendHeartbeat
  split
  · exact .of_msgs rfl
  · exact r.send_asides (by simp [Aside,Carries,Reports])

private theorem bcastHeartbeatWithCtx_asides (r : Raft) (ctx : Bytes) : Asides r (r.bcastHeartbeatWithCtx ctx) := by
  refine Asides.foldl (fun r id => ?_) _ r
  split
  · exact .of_msgs rfl
  · exact r.sendHeartbeat_asides ctx id

private theorem bcastHeartbeat_asides (r : Raft) : Asides r r.bcastHeartbeat := by
  unfold bcastHeartbeat
  split
  · exact .of_msgs rfl
  · exact r.bcastHeartbeatWithCtx_asides _

private theorem sendReadIndex_asides (r : Raft) (m : Message) : Asides r (r.sendReadIndex m) := by
  unfold sendReadIndex
  split
  · exact .of_msgs rfl
  · exact (bcastHeartbeatWithCtx_asides _ m.context).after (.of_msgs rfl)

private theorem releasePendingReadIndexMessages_asides (r : Raft) : Asides r r.releasePendingReadIndexMessages := by
  unfold releasePendingReadIndexMessages
  split
  · exact .of_msgs rfl
  · exact (Asides.foldl sendReadIndex_asides _ _).after (.of_msgs rfl)

private theorem maybeCommit_asides (r : Raft) : Asides r r.maybeCommit.1 := by
  unfold maybeCommit
  split
  · exact .of_msgs rfl
  dsimp only
  split
  · exact .of_msgs rfl
  split
  · exact .of_msgs rfl
  · exact (releasePendingReadIndexMessages_asides _).after (.of_msgs rfl)

private theorem appendEntry_asides (r : Raft) (es : List Entry) : Asides r (r.appendEntry es) := by
  unfold appendEntry
  dsimp only
  split
  · exact .of_msgs rfl
  · exact (maybeCommit_asides _).after (.of_msgs rfl)

theorem becomeLeader_asides (r : Raft) : Asides r r.becomeLeader := by
  unfold becomeLeader
  split
  · exact .of_msgs rfl
  · exact (appendEntry_asides _ _).after (.of_msgs rfl)

theorem recordVote_asides (r : Raft) (id : Nat) (granted : Bool) : Asides r (r.recordVote id granted) := by
  unfold recordVote
  split <;> exact .of_msgs rfl

private theorem becomeCandidate_asides (r : Raft) : Asides r r.becomeCandidate := by
  unfold becomeCandidate
  split <;> exact .of_msgs rfl

private theorem becomePreCandidate_asides (r : Raft) : Asides r r.becomePreCandidate := by
  unfold becomePreCandidate
  split <;> exact .of_msgs rfl

private theorem Solicits.asides {r r' : Raft} (h : Solicits r r') : Asides r r' := by
  obtain ⟨ms,p,rfl,hm⟩ := h
  refine fun m h => (List.mem_append.mp h).imp_right fun h => ?_
  rcases hm m h with h | h <;> simp [Aside,Carries,Reports,h]

theorem Stands.asides {r r' : Raft} (h : Stands r r') : Asides r r' := by
  have hp := (r.becomeCandidate.recordVote_asides r.becomeCandidate.id true).after r.becomeCandidate_asides
  cases h with
  | asks _ _ hr h => exact h.asides.after (hr ▸ hp)
  | wins r₁ hr => exact r₁.becomeLeader_asides.after (hr ▸ hp)

private theorem Campaigned.asides {r r' : Raft} (h : Campaigned r r') : Asides r r' := by
  have hp := (r.becomePreCandidate.recordVote_asides r.becomePreCandidate.id true).after r.becomePreCandidate_asides
  cases h with
  | probes _ _ hr _ h => exact h.asides.after (hr ▸ hp)
  | passes _ _ hr _ h => exact h.asides.after (hr ▸ hp)
  | stands _ _ h => exact h.asides

private theorem Ticked.asides {r r' : Raft} (h : Ticked r r') : Asides r r' := by
  cases h with
  | beats => exact (bcastHeartbeat_asides _).after (.of_msgs rfl)
  | waits => exact .of_msgs rfl
  | campaigns _ _ h => exact h.asides

theorem tick_asides (r : Raft) : Asides r r.tick := r.tick_ticked.asides

theorem stepReadIndex_asides (r : Raft) (m : Message) : Asides r (r.stepReadIndex m).1 := by
  unfold stepReadIndex
  split_ifs
  · exact .of_msgs rfl
  · exact r.sendReadIndex_asides m
  · exact .of_msgs rfl

theorem handleVoteRequest_asides (r : Raft) {m : Message} (ht : m.type ≠ .preVote) : Asides r (r.handleVoteRequest m) := by
  have hm : ∀ b : Bool, Aside { dest := m.sender, type := .voteResp, reject := b } := fun b => by
    simp [Aside,Carries,Reports]
  unfold handleVoteRequest
  split
  · exact .of_msgs rfl
  dsimp only
  rw [if_neg ht]
  split
  · exact (send_asides _ (hm _)).after (.of_msgs rfl)
  · exact r.send_asides (hm _)

theorem rejectSticky_asides (r : Raft) {m : Message} (ht : m.type ≠ .preVote) : Asides r (r.rejectSticky m) := by
  rw [rejectSticky,if_neg ht]
  exact r.send_asides (by simp [Aside,Carries,Reports])

theorem handleHeartbeat_asides (r : Raft) (m : Message) : Asides r (r.handleHeartbeat m) :=
  (send_asides _ (by simp [Aside,Carries,Reports])).after (.of_msgs rfl)

private theorem sendAppend_sentBy (r : Raft) (id : Nat) : SentBy [(r,id)] r (r.sendAppend id) := by
  rcases r.sendAppend_cases id with h | ⟨p,h⟩ | ⟨m,h,_⟩
  · exact .of_msgs (by rw [h]) _
  · exact .of_msgs (by rw [h]; rfl) _
  intro m' hm'
  rw [h] at hm'
  refine (List.mem_append.mp hm').imp_right fun hm' => .inr ⟨_,List.mem_singleton_self _,?_⟩
  obtain rfl := List.mem_singleton.mp hm'
  exact congrArg (·.msgs) h

private theorem bcastCalls_sentBy (ids : List Nat) : ∀ r : Raft, SentBy (r.bcastCalls ids) r
    (ids.foldl (fun r id => if id = r.id then r else r.sendAppend id) r) := by
  induction ids with
  | nil => exact fun r => .of_msgs rfl []
  | cons id ids ih =>
    intro r
    unfold bcastCalls
    rw [List.foldl_cons]
    split
    · exact ih r
    · exact (r.sendAppend_sentBy id).append (ih _)

private theorem bcastAppend_sentBy (r : Raft) : SentBy (r.bcastCalls r.peers) r r.bcastAppend := bcastCalls_sentBy r.peers r

private theorem Reported.sentBy {r r' : Raft} {m : Message} {calls : List (Raft × Nat)} (h : Reported r m r' calls) :
    SentBy calls r r' := by
  cases h with
  | idle | acked => exact .of_msgs rfl _
  | refused | installed => exact (sendAppend_sentBy _ _).after (.of_msgs rfl [])
  | held => exact (maybeCommit_asides _).sentBy.after (.of_msgs rfl [])
  | committed _ _ _ _ _ hc =>
    subst hc
    exact (bcastAppend_sentBy _).after ((maybeCommit_asides _).sentBy.after (.of_msgs rfl []))
  | beat =>
    unfold handleHeartbeatResp catchUp catchUpCalls
    have hc : ∀ r : Raft, ∀ calls, SentBy calls r (r.confirmReads m) := fun r _ => .of_msgs (r.confirmReads_msgs m) _
    cases r.prs.lookup m.sender with
    | none => exact hc r _
    | some pr =>
      dsimp only
      split
      · exact List.append_nil [(r,m.sender)] ▸ (r.sendAppend_sentBy m.sender).append (hc _ [])
      · exact hc r _

private theorem Balloted.sentBy {r r' : Raft} {v : Nat} {g : Bool} {calls : List (Raft × Nat)}
    (h : Balloted r (r.recordVote v g) r' calls) : SentBy calls r r' := by
  have hp := (r.recordVote_asides v g).sentBy
  cases h with
  | waits => exact hp
  | retires => exact (becomeFollower_plainly _ _ _).sentBy.after hp
  | stands _ _ _ h => exact h.asides.sentBy.after hp
  | wins => exact (bcastAppend_sentBy _).after ((becomeLeader_asides _).sentBy.after hp)

private theorem send_sentBy (r : Raft) {m : Message} (hm : ¬ Carries m) : SentBy [] r (r.send m) := by
  intro m' hm'
  refine (List.mem_append.mp hm').imp_right fun h => .inl ?_
  obtain rfl := List.mem_singleton.mp h
  unfold Carries
  rwa [(r.stampMessage_fields m).1]

private theorem handleAppend_sentBy (r : Raft) (m : Message) : SentBy [] r (r.handleAppend m) := by
  unfold handleAppend
  split
  · exact r.send_sentBy (by simp [Carries])
  split
  · exact (send_sentBy _ (by simp [Carries])).after (.of_msgs rfl [])
  · exact r.send_sentBy (by simp [Carries])

private theorem Heard.sentBy {r r' : Raft} {m : Message} (h : Heard r m r') : SentBy [] r r' := by
  cases h with
  | append => exact r.handleAppend_sentBy m
  | heartbeat => exact (r.handleHeartbeat_asides m).sentBy
  | snapshot => exact (r.handleSnapshot_plainly m).sentBy

private theorem Handled.sentBy {r r' : Raft} {m : Message} {calls : List (Raft × Nat)} (h : Handled r m r' calls) :
    SentBy calls r r' := by
  cases h with
  | idle => exact .of_msgs rfl []
  | request => exact (r.handleVoteRequest_plainly m).sentBy
  | heard _ _ hb h => exact h.sentBy.after (.of_msgs hb.kept.2.2.1 [])
  | ballot => exact (r.handleVoteResp_balloted m).sentBy
  | report _ _ _ h => exact h.sentBy

private theorem Stepped.sentBy {r r' : Raft} {m : Message} {calls : List (Raft × Nat)} (h : Stepped r m r' calls) :
    SentBy calls r r' := by
  cases h with
  | ignored => exact .of_msgs rfl []
  | proposed _ _ _ _ hr =>
    subst hr
    exact (bcastAppend_sentBy _).after (appendEntry_asides _ _).sentBy
  | read => exact (r.stepReadIndex_asides m).sentBy
  | sticky => exact (r.rejectSticky_plainly m).sentBy
  | stale => exact (r.rejectStale_plainly m).sentBy
  | role _ _ _ _ h => exact h.sentBy
  | adopts _ _ _ _ _ _ h => exact h.sentBy.after (.of_msgs rfl [])

/-- The list of calls is complete. -/
theorem step_sentBy (r : Raft) (m : Message) : SentBy (r.stepCalls m) r (r.step m).1 := (r.step_stepped m).sentBy

end Raft
end Parallax
