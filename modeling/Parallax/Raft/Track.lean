import Parallax.Raft.Calls

/-! What a leader keeps of a follower, and what a follower answers: how an input moves Match and Next, and
how far below an answer the message lies that it answers. -/
namespace Parallax
namespace Raft

theorem lookup_initProgress (id last : Nat) (peers : List Nat) (v : Nat) :
    (initProgress id last peers).lookup v =
      if v ∈ peers then some { next := last + 1, matched := if v = id then last else 0 } else none := by
  unfold initProgress
  suffices hgen : ∀ prs : AList (fun _ : Nat => Progress),
      (peers.foldl (fun prs p =>
        prs.insert p { next := last + 1, matched := if p = id then last else 0 }) prs).lookup v =
      if v ∈ peers then some { next := last + 1, matched := if v = id then last else 0 } else prs.lookup v by
    rw [hgen]
    simp
  induction peers with
  | nil => simp
  | cons p ps ih =>
    intro prs
    rw [List.foldl_cons,ih]
    by_cases hp : v ∈ ps
    · simp [hp]
    by_cases hv : v = p
    · subst hv
      simp [hp]
    · simp [hp,hv,AList.lookup_insert_ne hv]

/-- What an input does to the progress of follower `v`, of a node that leads afterwards. -/
inductive Tracked (r : Raft) (i : Option Message) (r' : Raft) (v : Nat) : Prop
  | kept (hs : r.state = .leader) (hp : r'.prs.lookup v = r.prs.lookup v)
  | acked (m : Message) (pr : Progress) (hi : i = some m) (hs : r.state = .leader) (hterm : m.term = r.term)
      (hm : (m.type = .appendResp ∧ m.reject = false) ∨ m.type = .installSnapshotResp) (hv : m.sender = v)
      (hpr : r.prs.lookup v = some pr) (hp : r'.prs.lookup v = some (pr.maybeUpdate m.logIndex).1)
  | refused (m : Message) (pr : Progress) (hi : i = some m) (hs : r.state = .leader) (hterm : m.term = r.term)
      (hm : m.type = .appendResp ∧ m.reject = true) (hv : m.sender = v) (hpr : r.prs.lookup v = some pr)
      (hn : pr.next - 1 = m.logIndex) (hp : r'.prs.lookup v = some { pr with next := r.decrHint m + 1 })
  | fresh (hs : r.state ≠ .leader) (hp : ∀ pr, r'.prs.lookup v = some pr → pr.matched = 0)

variable (r : Raft) {m : Message} {v : Nat}

private theorem maybeCommit_prs : r.maybeCommit.1.prs = r.prs := by
  rcases r.maybeCommit_cases with ⟨h,_⟩ | ⟨i,h,_⟩ <;> exact h.prs

private theorem appendEntry_prs (es : List Entry) (hv : v ≠ r.id) : (r.appendEntry es).prs.lookup v = r.prs.lookup v := by
  unfold appendEntry
  dsimp only
  split
  · rfl
  · rw [maybeCommit_prs,AList.lookup_insert_ne hv]

/-- If it leads, `r'` knows nothing of the log of `v`. -/
def Blank (v : Nat) (r' : Raft) : Prop := r'.state = .leader → ∀ pr, r'.prs.lookup v = some pr → pr.matched = 0

theorem Blank.of_ne {r' : Raft} (h : r'.state ≠ .leader) : Blank v r' := fun hl => absurd hl h

theorem Blank.same {r' : Raft} (h : Blank v r) (hs : Same r r') : Blank v r' := by
  unfold Blank
  rw [hs.state,hs.prs]
  exact h

private theorem becomeLeader_blank (hs : r.state ≠ .follower) (hv : v ≠ r.id) : Blank v r.becomeLeader := by
  intro _ pr hpr
  unfold becomeLeader at hpr
  rw [if_neg hs,appendEntry_prs { r.reset r.term with lead := r.id, state := .leader } _ hv] at hpr
  change (initProgress r.id r.raftLog.lastIndex r.peers).lookup v = some pr at hpr
  rw [lookup_initProgress,if_neg hv] at hpr
  split at hpr
  · cases hpr
    rfl
  · cases hpr

private theorem handleVoteRequest_prs (m : Message) : (r.handleVoteRequest m).prs = r.prs := by
  unfold handleVoteRequest
  dsimp only
  split
  · rfl
  split
  · rfl
  · split <;> rfl

private theorem Reported.tracked {r r' : Raft} {calls : List (Raft × Nat)} (h : Reported r m r' calls)
    (hs : r.state = .leader) (hterm : Reports m → m.term = r.term) : Tracked r (some m) r' v := by
  -- Only the sender's progress is written.
  have hother : ∀ pr', r'.prs = r.prs.insert m.sender pr' → m.sender ≠ v → Tracked r (some m) r' v :=
    fun pr' hr' hne => .kept hs (by rw [hr',AList.lookup_insert_ne (Ne.symm hne)])
  have hack : ∀ pr, (m.type = .appendResp ∧ m.reject = false) ∨ m.type = .installSnapshotResp →
      r.prs.lookup m.sender = some pr → r'.prs = r.prs.insert m.sender (pr.maybeUpdate m.logIndex).1 →
      Tracked r (some m) r' v := by
    intro pr ht hpr hr'
    by_cases hv : m.sender = v
    · subst hv
      exact .acked m pr rfl hs (hterm (ht.imp_left (·.1))) ht rfl hpr (by rw [hr',AList.lookup_insert])
    · exact hother _ hr' hv
  cases h with
  | idle => exact .kept hs rfl
  | refused pr pr' ht hrej hpr hd =>
    have hprs : ({ r with prs := r.prs.insert m.sender pr' }.sendAppend m.sender).prs =
        r.prs.insert m.sender pr' := (sendAppend_same _ _).prs
    unfold Progress.maybeDecrTo at hd
    split at hd
    · cases hd
    rename_i hn
    by_cases hv : m.sender = v
    · subst hv
      refine .refused m pr rfl hs (hterm (.inl ht)) ⟨ht,hrej⟩ rfl hpr (not_not.mp hn) ?_
      rw [hprs,AList.lookup_insert,← (Prod.mk.inj hd).1,if_neg (by omega)]
    · exact hother _ hprs hv
  | acked pr ht hrej hpr => exact hack pr (.inl ⟨ht,hrej⟩) hpr rfl
  | held pr ht hrej hpr => exact hack pr (.inl ⟨ht,hrej⟩) hpr (maybeCommit_prs _)
  | committed pr r₁ ht hrej hpr hc =>
    exact hack pr (.inl ⟨ht,hrej⟩) hpr (by rw [(bcastAppend_same _).prs,hc,maybeCommit_prs])
  | beat => exact .kept hs (by rw [(r.handleHeartbeatResp_same m).prs])
  | installed pr ht hpr => exact hack pr (.inr ht) hpr (sendAppend_same _ _).prs

private theorem Stands.blank {r r' : Raft} (h : Stands r r') (hs : r.state ≠ .leader) (hv : v ≠ r.id) : Blank v r' := by
  cases h with
  | asks r₁ _ hr h => exact .of_ne (by rw [h.same.state,(r.stood_role hs hr).1]; simp)
  | wins r₁ hr =>
    obtain ⟨hst,_,_,hid⟩ := r.stood_role hs hr
    exact r₁.becomeLeader_blank (by rw [hst]; simp) (by rwa [hid])

private theorem Campaigned.blank {r r' : Raft} (h : Campaigned r r') (hs : r.state ≠ .leader) (hv : v ≠ r.id) :
    Blank v r' := by
  cases h with
  | probes r₁ _ hr _ h => exact .of_ne (by rw [h.same.state,(r.probed_role hs hr).1]; simp)
  | passes r₁ _ hr _ h =>
    obtain ⟨hst,_,_,hid,_⟩ := r.probed_role hs hr
    exact h.blank (by rw [hst]; simp) (by rwa [hid])
  | stands _ _ h => exact h.blank hs hv

private theorem Ticked.tracked {r r' : Raft} (h : Ticked r r') (hv : v ≠ r.id) (hl : r'.state = .leader) :
    Tracked r none r' v := by
  cases h with
  | beats hs => exact .kept hs (by rw [(bcastHeartbeat_same _).prs])
  | waits => exact .kept hl rfl
  | campaigns _ hs h => exact .fresh hs (h.blank hs hv hl)

theorem tick_tracked (hv : v ≠ r.id) (hl : r.tick.state = .leader) : Tracked r none r.tick v :=
  r.tick_ticked.tracked hv hl

private theorem Balloted.blank {r r' : Raft} {u : Nat} {g : Bool} {calls : List (Raft × Nat)}
    (h : Balloted r (r.recordVote u g) r' calls) (hs : r.state = .preCandidate ∨ r.state = .candidate) (hv : v ≠ r.id) :
    Blank v r' := by
  obtain ⟨kid,_,kst,_⟩ := r.recordVote_role u g
  have hne : (r.recordVote u g).state ≠ .leader ∧ (r.recordVote u g).state ≠ .follower := by
    rw [kst]
    rcases hs with hs | hs <;> simp [hs]
  cases h with
  | waits => exact .of_ne hne.1
  | retires => exact .of_ne (by simp [becomeFollower])
  | stands _ _ _ h => exact h.blank hne.1 (by rwa [kid])
  | wins => exact (becomeLeader_blank _ hne.2 (by rwa [kid])).same _ (bcastAppend_same _)

section ways
variable {r} {r' : Raft} {calls : List (Raft × Nat)}

private theorem Handled.blank (h : Handled r m r' calls) (hs : r.state ≠ .leader) (hv : v ≠ r.id) : Blank v r' := by
  cases h with
  | idle => exact .of_ne hs
  | request => exact .of_ne (by rwa [(r.handleVoteRequest_keeps m).state])
  | heard _ _ hb h => exact .of_ne (by rw [h.keeps.state,hb.state]; simp)
  | ballot hs => exact (r.handleVoteResp_balloted m).blank (hs.imp (·.1) (·.1)) hv
  | report _ _ hl => exact absurd hl hs

private theorem Stepped.blank (h : Stepped r m r' calls) (hs : r.state ≠ .leader) (hv : v ≠ r.id) : Blank v r' := by
  cases h with
  | ignored => exact .of_ne hs
  | proposed _ _ hl => exact absurd hl hs
  | read => exact .of_ne (by rwa [(r.stepReadIndex_same m).state])
  | sticky => exact .of_ne (by rwa [(r.rejectSticky_same m).state])
  | stale => exact .of_ne (by rwa [(r.rejectStale_same m).state])
  | role _ _ _ _ h => exact h.blank hs hv
  | adopts _ _ _ _ _ _ h => exact h.blank (by simp [becomeFollower]) hv

private theorem Stepped.tracked (h : Stepped r m r' calls) (hm : m.type = .propose ∨ m.type = .readIndex ∨ 0 < m.term)
    (hv : v ≠ r.id) (hs : r.state = .leader) (hl : r'.state = .leader) : Tracked r (some m) r' v := by
  cases h with
  | ignored => exact .kept hs rfl
  | proposed _ _ _ _ hr => exact .kept hs (by rw [(bcastAppend_same _).prs,hr,appendEntry_prs _ _ hv])
  | read => exact .kept hs (by rw [(r.stepReadIndex_same m).prs])
  | sticky => exact .kept hs (by rw [(r.rejectSticky_same m).prs])
  | stale => exact .kept hs (by rw [(r.rejectStale_same m).prs])
  | role _ _ hloc hp h =>
    rcases h.led hs with rfl | h
    · exact .kept hs (by rw [handleVoteRequest_prs])
    · refine h.tracked hs fun ht => (hp.term hloc hm).2 ?_ ?_ <;> rcases ht with ht | ht <;> rw [ht] <;> simp
  | adopts _ _ _ _ _ _ h =>
    rw [(h.down rfl).1] at hl
    cases hl

end ways

theorem step_tracked (hm : m.type = .propose ∨ m.type = .readIndex ∨ 0 < m.term) (hv : v ≠ r.id)
    (hl : (r.step m).1.state = .leader) : Tracked r (some m) (r.step m).1 v := by
  by_cases hs : r.state = .leader
  · exact (r.step_stepped m).tracked hm hv hs hl
  · exact .fresh hs ((r.step_stepped m).blank hs hv hl)

/-- What the answer `m` owes to the input: a hint is not above the index it rejects, what is acknowledged is not
below where the message that is answered starts, and only a probe has its answer. -/
structure Answers (i : Option Message) (m : Message) : Prop where
  hint : m.type = .appendResp → m.reject = true → m.rejectHint ≤ m.logIndex
  append : m.type = .appendResp → m.reject = false → m.logIndex ≠ 0 → ∃ m₀, i = some m₀ ∧ m₀.type = .append ∧
    m₀.sender = m.dest ∧ m₀.term = m.term ∧ m₀.logIndex ≤ m.logIndex
  snapshot : m.type = .installSnapshotResp → m.logIndex ≠ 0 → ∃ m₀ snap, i = some m₀ ∧ m₀.type = .installSnapshot ∧
    m₀.snapshot = some snap ∧ m₀.sender = m.dest ∧ m₀.term = m.term ∧ snap.metadata.index ≤ m.logIndex
  probe : m.type = .preVoteResp → ∃ m₀, i = some m₀ ∧ m₀.type = .preVote

theorem Aside.answers (h : Aside m) (i : Option Message) : Answers i m :=
  ⟨fun ht => absurd (.inl ht) h.2.1,fun ht => absurd (.inl ht) h.2.1,fun ht => absurd (.inr ht) h.2.1,
    fun ht => absurd ht h.2.2⟩

/-- Every report that went out answers the input. -/
def Answering (i : Option Message) (r r' : Raft) : Prop := ∀ m ∈ r'.msgs, m ∈ r.msgs ∨ Answers i m

theorem Asides.answering {r r' : Raft} (h : Asides r r') (i : Option Message) : Answering i r r' :=
  fun m hm => (h m hm).imp_right fun h => h.answers i

private theorem FromLeader.answers (h : FromLeader m) (i : Option Message) : Answers i m := by
  refine ⟨fun ht => ?_,fun ht => ?_,fun ht => ?_,fun ht => ?_⟩ <;> rcases h with h | h | h <;> rw [ht] at h <;> cases h

/-- A leader's messages are no reports. -/
theorem Voices.answering {r r' : Raft} (h : Voices r r') (i : Option Message) : Answering i r r' :=
  fun m hm => (h.msgs m hm).imp_right fun h => h.1.answers i

theorem send_answering {i : Option Message} {r₁ : Raft} (hm : r₁.msgs = r.msgs) {m : Message} (ht : Reports m)
    (hz : m.term = 0) (h : Answers i { m with sender := r₁.id, term := r₁.term }) : Answering i r (r₁.send m) := by
  intro m' hm'
  rw [send,hm] at hm'
  refine (List.mem_append.mp hm').imp_right fun hm' => ?_
  obtain rfl := List.mem_singleton.mp hm'
  rwa [r₁.stampMessage_zero hz (by rcases ht with ht | ht <;> simp [Stamped,ht])]

private theorem handleAppend_answering (ht : m.type = .append) (hterm : m.term = r.term) :
    Answering (some m) r (r.handleAppend m) := by
  unfold handleAppend
  split
  · rename_i hlt
    exact r.send_answering rfl (.inl rfl) rfl ⟨fun _ h => (nomatch h),
      fun _ _ _ => ⟨m,rfl,ht,rfl,hterm,le_of_lt hlt⟩,fun h => (nomatch h),fun h => (nomatch h)⟩
  split
  · rename_i l k heq
    have hk : m.logIndex ≤ k := by
      unfold RaftLog.maybeAppend at heq
      split at heq
      · obtain rfl := Option.some.inj (Prod.mk.inj heq).2
        exact Nat.le_add_right _ _
      · cases (Prod.mk.inj heq).2
    exact r.send_answering rfl (.inl rfl) rfl ⟨fun _ h => (nomatch h),
      fun _ _ _ => ⟨m,rfl,ht,rfl,hterm,hk⟩,fun h => (nomatch h),fun h => (nomatch h)⟩
  exact r.send_answering rfl (.inl rfl) rfl
    ⟨fun _ _ => (r.findConflictByTerm_le _ _).trans (min_le_left _ _),fun _ h => (nomatch h),fun h => (nomatch h),
      fun h => (nomatch h)⟩

private theorem handleSnapshot_answering (ht : m.type = .installSnapshot) (hterm : m.term = r.term)
    (hp : (r.handleSnapshot m).raftLog.panicked = none) : Answering (some m) r (r.handleSnapshot m) := by
  unfold handleSnapshot at hp ⊢
  cases hsnap : m.snapshot with
  | none => exact fun m' hm' => .inl hm'
  | some snap =>
    rw [hsnap] at hp
    have hans : ∀ (r₁ : Raft) (k : Nat), r₁.msgs = r.msgs → r₁.term = r.term → snap.metadata.index ≤ k →
        Answering (some m) r (r₁.send { dest := m.sender, type := .installSnapshotResp, logIndex := k }) :=
      fun r₁ k hm₁ ht₁ hk => r.send_answering hm₁ (.inr rfl) rfl ⟨fun h => (nomatch h),fun h => (nomatch h),
        fun _ _ => ⟨m,snap,rfl,ht,hsnap,rfl,hterm.trans ht₁.symm,hk⟩,fun h => (nomatch h)⟩
    unfold restore at hp ⊢
    dsimp only at hp ⊢
    by_cases hc : snap.metadata.index ≤ r.raftLog.committed
    · rw [if_pos hc]
      exact hans r _ rfl rfl hc
    rw [if_neg hc] at hp ⊢
    by_cases hm : r.raftLog.matchTerm snap.metadata.index snap.metadata.term = true
    · rw [if_pos hm] at hp ⊢
      refine hans _ _ rfl rfl ?_
      change (r.raftLog.commitTo snap.metadata.index).panicked = none at hp
      unfold RaftLog.commitTo at hp ⊢
      split_ifs at hp ⊢
      · cases hp
      · exact le_rfl
      · omega
    · rw [if_neg hm]
      exact hans _ _ rfl rfl le_rfl

theorem send_answering_probe (ht : m.type = .preVote) (reject : Bool) (term : Nat) : Answering (some m) r
    (r.send { dest := m.sender, type := .preVoteResp, reject := reject, term := term }) := by
  intro m' hm'
  refine (List.mem_append.mp hm').imp_right fun hm' => ?_
  obtain rfl := List.mem_singleton.mp hm'
  have hty := (r.stampMessage_fields { dest := m.sender, type := .preVoteResp, reject := reject, term := term }).1
  refine ⟨fun h => ?_,fun h => ?_,fun h => ?_,fun _ => ⟨m,rfl,ht⟩⟩ <;> rw [hty] at h <;> cases h

theorem rejectStale_answering (m : Message) : Answering (some m) r (r.rejectStale m) := by
  have hempty : ∀ t : MessageType, Reports { dest := m.sender, type := t } →
      Answers (some m) { dest := m.sender, type := t, sender := r.id, term := r.term } := fun t ht =>
    ⟨fun _ h => (nomatch h),fun _ _ h => absurd rfl h,fun _ h => absurd rfl h,fun h => by
      rcases ht with ht | ht <;> rw [ht] at h <;> cases h⟩
  unfold rejectStale
  split
  · rename_i ht
    rw [ht]
    exact r.send_answering rfl (.inl rfl) rfl (hempty _ (.inl rfl))
  · rename_i ht
    rw [ht]
    exact (r.send_asides (by simp [Aside,Carries,Reports,msgRespType])).answering _
  · rename_i ht
    rw [ht]
    exact r.send_answering rfl (.inr rfl) rfl (hempty _ (.inr rfl))
  · rename_i ht
    exact r.send_answering_probe ht true r.term
  · exact fun m hm => .inl hm

private theorem handleVoteRequest_answering (m : Message) : Answering (some m) r (r.handleVoteRequest m) := by
  by_cases ht : m.type = .preVote
  · unfold handleVoteRequest
    split
    · exact fun m hm => .inl hm
    rw [if_pos ht]
    exact r.send_answering_probe ht _ _
  · exact (r.handleVoteRequest_asides ht).answering _

private theorem rejectSticky_answering (m : Message) : Answering (some m) r (r.rejectSticky m) := by
  by_cases ht : m.type = .preVote
  · rw [rejectSticky,if_pos ht]
    exact r.send_answering_probe ht _ _
  · exact (r.rejectSticky_asides ht).answering _

theorem Answering.before {i : Option Message} {r r₁ r' : Raft} (h : Answering i r₁ r') (hm : r₁.msgs = r.msgs) :
    Answering i r r' := fun m hm' => hm ▸ h m hm'

private theorem Balloted.answering {r r' : Raft} {v : Nat} {g : Bool} {calls : List (Raft × Nat)}
    (h : Balloted r (r.recordVote v g) r' calls) (i : Option Message) : Answering i r r' := by
  have hp := r.recordVote_asides v g
  cases h with
  | waits => exact hp.answering i
  | retires => exact hp.answering i
  | stands _ _ _ h => exact (h.asides.after hp).answering i
  | wins =>
    intro m' hm'
    rcases (bcastAppend_voices _).answering i m' hm' with hm' | hm'
    · exact ((becomeLeader_asides _).after hp).answering i m' hm'
    · exact .inr hm'

private theorem handleHeartbeatResp_answering (i : Option Message) : Answering i r (r.handleHeartbeatResp m) := by
  intro m' hm'
  rw [handleHeartbeatResp,confirmReads_msgs] at hm'
  exact (r.catchUp_msgs _ m' hm').imp_right fun h => FromLeader.answers (h.1.imp_right .inr) i

section ways
variable {r} {r' : Raft} {calls : List (Raft × Nat)}

private theorem Heard.answering (h : Heard r m r') (hterm : m.term = r.term) (hp : r'.raftLog.panicked = none) :
    Answering (some m) r r' := by
  cases h with
  | append ht => exact r.handleAppend_answering ht hterm
  | heartbeat => exact (r.handleHeartbeat_asides m).answering _
  | snapshot ht => exact r.handleSnapshot_answering ht hterm hp

private theorem Handled.answering (h : Handled r m r' calls) (hw : r.readOnly.WF)
    (hterm : FromLeader m → m.term = r.term) (hp : r'.raftLog.panicked = none) : Answering (some m) r r' := by
  cases h with
  | idle => exact fun m hm => .inl hm
  | request => exact r.handleVoteRequest_answering m
  | heard _ _ hb h =>
    have heq := hterm h.fromLeader
    exact (h.answering (heq.trans (hb.follows heq).1.symm) hp).before hb.kept.2.2.1
  | ballot => exact (r.handleVoteResp_balloted m).answering _
  | report _ _ _ h =>
    rcases h.voices hw with rfl | hv
    · exact r.handleHeartbeatResp_answering _
    · exact hv.answering _

private theorem Stepped.answering (h : Stepped r m r' calls) (hw : r.readOnly.WF)
    (hm : m.type = .propose ∨ m.type = .readIndex ∨ 0 < m.term) (hp : r'.raftLog.panicked = none) :
    Answering (some m) r r' := by
  cases h with
  | ignored => exact fun m hm => .inl hm
  | proposed _ _ _ _ hr =>
    subst hr
    exact ((r.appendEntry_voices _ hw).trans (bcastAppend_voices _)).answering _
  | read => exact (r.stepReadIndex_asides m).answering _
  | sticky => exact r.rejectSticky_answering m
  | stale => exact r.rejectStale_answering m
  | role _ _ hloc hpass h => exact h.answering hw (hpass.fromLeader hloc hm) hp
  | adopts _ _ _ _ _ _ h => exact (h.answering ReadOnly.WF.empty (fun _ => rfl) hp).before rfl

end ways

theorem step_answering (hw : r.readOnly.WF) (hm : m.type = .propose ∨ m.type = .readIndex ∨ 0 < m.term)
    (hp : (r.step m).1.raftLog.panicked = none) : Answering (some m) r (r.step m).1 :=
  (r.step_stepped m).answering hw hm hp

theorem step_probe (ht : m.type = .preVote) {m' : Message} (hm' : m' ∈ (r.step m).1.msgs) :
    m' ∈ r.msgs ∨ m'.dest = m.sender ∧ (m'.term = m.term ∨ m'.term = r.term) := by
  have hsend : ∀ (b : Bool) (t : Nat), m' ∈ (r.send { dest := m.sender, type := .preVoteResp, reject := b, term := t }).msgs →
      m' ∈ r.msgs ∨ m'.dest = m.sender ∧ m'.term = t := by
    intro b t h
    refine (List.mem_append.mp h).imp_right fun h => ?_
    obtain rfl := List.mem_singleton.mp h
    unfold stampMessage
    dsimp only
    split_ifs <;> exact ⟨rfl,rfl⟩
  have hown : ∀ b, m' ∈ (r.send { dest := m.sender, type := .preVoteResp, reject := b, term := m.term }).msgs →
      m' ∈ r.msgs ∨ m'.dest = m.sender ∧ (m'.term = m.term ∨ m'.term = r.term) :=
    fun b h => (hsend b _ h).imp_right (.imp_right .inl)
  have hrole : m' ∈ (r.stepRole m).msgs → m' ∈ r.msgs ∨ m'.dest = m.sender ∧ (m'.term = m.term ∨ m'.term = r.term) := by
    intro h
    rw [stepRole,ht] at h
    change m' ∈ (r.handleVoteRequest m).msgs at h
    unfold handleVoteRequest at h
    cases hlt : r.raftLog.lastTerm with
    | error err =>
      rw [hlt] at h
      exact .inl h
    | ok lt =>
      simp only [hlt,ht,if_true] at h
      exact hown _ h
  simp only [step,ht] at hm'
  split_ifs at hm'
  · rw [rejectSticky,if_pos ht] at hm'
    exact hown _ hm'
  · exact hrole hm'
  · rw [adoptTerm,if_pos ht] at hm'
    exact hrole hm'
  · rw [rejectStale,ht] at hm'
    exact (hsend _ _ hm').imp_right (.imp_right .inr)
  · exact hrole hm'

end Raft
end Parallax
