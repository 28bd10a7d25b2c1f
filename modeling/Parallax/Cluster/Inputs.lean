import Parallax.Cluster.Follower

/-! Every input of a core keeps its invariant under some continuation of the history. -/
namespace Parallax.Cluster
open Consensus Consensus.History
variable {S : Setup} {H : Hist} {n t : Nat} {r : Raft} {m : Message}

namespace Leading

private theorem setProgress (h : Leading S H n t r) {v : Nat} {pr : Progress} (hm : pr.matched ≤ H.ack v r.term)
    (hn : 1 ≤ pr.next ∧ pr.next ≤ (H.log n).length + 1) :
    Leading S H n t { r with prs := r.prs.insert v pr } := by
  have ho := h.core.ok
  refine h.of_ok { ho with leads := fun hs => ?_, prs := fun u hu => ?_ } rfl rfl
  · refine { ho.leads hs with matched := fun u p hp => ?_, next := fun u p hp => ?_ }
    · by_cases huv : u = v
      · subst huv
        rw [AList.lookup_insert] at hp
        exact Option.some.inj hp ▸ hm
      · rw [AList.lookup_insert_ne huv] at hp
        exact (ho.leads hs).matched u p hp
    by_cases huv : u = v
    · subst huv
      rw [AList.lookup_insert] at hp
      exact Option.some.inj hp ▸ hn
    · rw [AList.lookup_insert_ne huv] at hp
      exact (ho.leads hs).next u p hp
  by_cases huv : u = v
  · subst huv
    simp
  · simp only [AList.lookup_insert_ne huv]
    exact ho.prs u hu

theorem maybeUpdate (h : Leading S H n t r) {v i : Nat} {pr : Progress} (hpr : r.prs.lookup v = some pr)
    (hi : i ≤ H.ack v r.term) :
    Leading S H n t { r with prs := r.prs.insert v (pr.maybeUpdate i).1 } := by
  have hm := h.leads.matched v pr hpr
  have hn := h.leads.next v pr hpr
  have hil : i ≤ (H.log n).length := by
    rw [h.leads.log]
    exact hi.trans (h.core.good.inv.ack_le v r.term)
  apply h.setProgress
  · simp only [Progress.maybeUpdate]
    split_ifs
    · exact hi
    · exact hm
  · simp only [Progress.maybeUpdate]
    split_ifs <;> omega

private theorem scanHint_le (r : Raft) (ht hint : Nat) : r.scanHint ht hint ≤ hint := by
  induction hint with
  | zero => simp [Raft.scanHint]
  | succ i ih =>
    unfold Raft.scanHint
    split
    · exact le_rfl
    split
    · exact le_rfl
    · exact ih.trans (Nat.le_succ _)

private theorem decrHint_le (r : Raft) (m : Message) : r.decrHint m ≤ m.rejectHint := by
  unfold Raft.decrHint
  split
  · refine (scanHint_le _ _ _).trans ?_
    split_ifs <;> omega
  · exact le_rfl

private theorem catchUp (h : Leading S H n t r) {id : Nat} (hid : id ≠ n) : Leading S H n t (r.catchUp id) := by
  unfold Raft.catchUp
  split
  · exact h
  split
  · exact h.sendAppend hid
  · exact h

private theorem confirmReads (h : Leading S H n t r) (m : Message) : Leading S H n t (r.confirmReads m) := by
  have hreads := h.core.ok.reads.recvAck m.sender m.context
  unfold Raft.confirmReads
  simp only
  split
  · exact h
  split
  · exact h.of_ok { h.core.ok with reads := hreads } rfl rfl
  · exact h.of_ok { h.core.ok with reads := hreads.advance m.context } rfl rfl

private theorem reported (h : Leading S H n t r) (hm : MsgOK S H m) (hd : m.sender ≠ n)
    (hterm : m.type = .appendResp ∨ m.type = .installSnapshotResp → m.term = r.term) {r' : Raft}
    {calls : List (Raft × Nat)} (hr : r.Reported m r' calls) : Leadership S H n t r' := by
  have hc := hm.content
  have hack : m.type = .appendResp → m.reject = false → m.logIndex ≤ H.ack m.sender r.term := by
    intro ht hrej
    simp only [Content,ht] at hc
    exact hterm (.inl ht) ▸ hc.1 hrej
  cases hr with
  | idle => exact ⟨H,Frame.refl n H,h⟩
  | refused pr pr' ht hrej hpr hdec =>
    simp only [Content,ht] at hc
    rw [hterm (.inl ht)] at hc
    have hpr' : pr' = { pr with next := r.decrHint m + 1 } := by
      unfold Progress.maybeDecrTo at hdec
      split_ifs at hdec with h1 h2
      · cases (Prod.mk.inj hdec).2
      · exact absurd h2 (by simp)
      · exact (Prod.mk.inj hdec).1.symm
    have hL : Leading S H n t { r with prs := r.prs.insert m.sender pr' } := by
      rw [hpr']
      refine h.setProgress (h.leads.matched _ pr hpr) ⟨Nat.succ_pos _,Nat.succ_le_succ ?_⟩
      rw [h.leads.log]
      exact (decrHint_le r m).trans (hc.2 hrej)
    exact ⟨H,Frame.refl n H,hL.sendAppend hd⟩
  | acked pr ht hrej hpr => exact ⟨H,Frame.refl n H,h.maybeUpdate hpr (hack ht hrej)⟩
  | held pr ht hrej hpr => exact (h.maybeUpdate hpr (hack ht hrej)).maybeCommit
  | committed pr r₁ ht hrej hpr hr =>
    subst hr
    exact (h.maybeUpdate hpr (hack ht hrej)).maybeCommit.map fun _ hl => hl.bcastAppend
  | beat => exact ⟨H,Frame.refl n H,(h.catchUp hd).confirmReads m⟩
  | installed pr ht hpr =>
    simp only [Content,ht] at hc
    rw [hterm (.inr ht)] at hc
    exact ⟨H,Frame.refl n H,(h.maybeUpdate hpr hc).sendAppend hd⟩

/-- A leader may always write at the end of its log. -/
theorem writable (h : Leading S H n t r) {ents : List Entry} (he : ∀ e ∈ ents, e.term = r.term) :
    Writable S.quorums Entry.term H n r.term ents [] := by
  have hl := h.leads
  have hlog : H.lead r.term <+: H.log n := by
    rw [hl.log]
  exact
    { pos := h.pos
      entries := he
      log_le := by
        rw [hl.log]
        exact h.core.good.inv.lead_le r.term
      lead_log := hlog
      elected := fun _ => hl.elected.mem_terms
      won := h.core.good.inv.won.ext (Ext.write _ _ hlog) }

theorem own (h : Leading S H n t r) : ∀ q, q ≠ n → ¬ H.Elected r.term q :=
  fun _ hq he => hq (h.core.good.inv.elected_unique he h.leads.elected)

private theorem writing (h : Leading S H n t r) (es : List Entry) : Writing S H n r es [] where
  mem := h.core.mem
  good := h.core.good
  state := h.state
  ok := { h.core.ok with
    leads := fun hs => by cases hs
    com := fun hs => by cases hs
    stands := fun hs => by cases hs }
  writable := h.writable (stampEntries_term _ _ _)
  mine := by simp
  own := h.own
  elected := .inr h.leads.elected
  matched v pr hpr := .inl (h.leads.matched v pr hpr)
  next := h.leads.next
  com := h.core.ok.com h.state

end Leading

theorem At.stepPropose (h : At S H n r) (m : Message) : Reaches S H n r (r.stepPropose m).1 := by
  unfold Raft.stepPropose
  split
  · exact Reaches.refl h
  rename_i hs
  split
  · exact Reaches.refl h
  rename_i hne
  have hL : Leading S H n r.term r := ⟨h,by simpa using hs,rfl⟩
  refine (((hL.writing _).appendEntry ?_).map fun _ hl => hl.bcastAppend).reaches le_rfl
  intro hnil
  apply hne
  simpa using congrArg List.length hnil

theorem At.stepReadIndex (h : At S H n r) (m : Message) : Reaches S H n r (r.stepReadIndex m).1 := by
  unfold Raft.stepReadIndex
  split
  · exact Reaches.refl h
  rename_i hs
  have hL : Leading S H n r.term r := ⟨h,by simpa using hs,rfl⟩
  split
  · exact Reaches.of_ok h (hL.sendReadIndex m).core.ok (hL.sendReadIndex m).term.symm
  · exact Reaches.of_ok h { h.ok with } rfl

/-- A delivered message together with its receiver. -/
structure Delivery (S : Setup) (H : Hist) (n : Nat) (r : Raft) (m : Message) : Prop where
  core : At S H n r
  msg : MsgOK S H m
  dest : m.dest = n
  clean : r.raftLog.Clean

namespace Delivery

private theorem ne (h : Delivery S H n r m) : m.sender ≠ n := by
  rw [← h.dest]
  exact h.msg.ne.symm

private theorem rejectSticky (h : Delivery S H n r m) (hs : r.sticky m = true) :
    Reaches S H n r (r.rejectSticky m) := by
  have ho := h.core.ok
  unfold Raft.sticky at hs
  simp only [Bool.and_eq_true,bne_iff_ne] at hs
  have hpos := ho.lead hs.1.1.2
  unfold Raft.rejectSticky
  split
  · refine Reaches.of_ok h.core (ho.send ?_ ?_ ?_) rfl <;>
      rw [Raft.stampMessage_pos _ (by exact h.msg.term.ne')]
    · exact ⟨by rw [ho.id]; exact h.core.mem,by rw [ho.id]; exact h.ne,h.msg.term,trivial⟩
    · exact fun _ hne => absurd rfl hne
    · exact fun hp => by cases hp
  · refine Reaches.of_ok h.core (ho.send ?_ ?_ ?_) rfl <;>
      rw [Raft.stampMessage_pos _ (by exact hpos.ne')]
    · exact ⟨by rw [ho.id]; exact h.core.mem,by rw [ho.id]; exact h.ne,hpos,fun hr => by cases hr⟩
    · exact fun _ _ => le_rfl
    · exact fun _ => Nat.le_succ _

private theorem rejectStale (h : Delivery S H n r m) (hlt : m.term < r.term) :
    Reaches S H n r (r.rejectStale m) := by
  have ho := h.core.ok
  have hpos : 0 < r.term := Nat.lt_of_le_of_lt (Nat.zero_le _) hlt
  unfold Raft.rejectStale
  split
  · rename_i ht
    rw [ht]
    refine Reaches.of_ok h.core (ho.send_stamped h.core.mem hpos h.ne rfl ?_ ?_) rfl
    · simp [Raft.Stamped,Raft.msgRespType]
    · exact ⟨fun _ => Nat.zero_le _,fun hr => by cases hr⟩
  · rename_i ht
    rw [ht]
    refine Reaches.of_ok h.core (ho.send_stamped h.core.mem hpos h.ne rfl ?_ ?_) rfl
    · simp [Raft.Stamped,Raft.msgRespType]
    · trivial
  · rename_i ht
    rw [ht]
    refine Reaches.of_ok h.core (ho.send_stamped h.core.mem hpos h.ne rfl ?_ ?_) rfl
    · simp [Raft.Stamped,Raft.msgRespType]
    · exact Nat.zero_le _
  · refine Reaches.of_ok h.core (ho.send ?_ ?_ ?_) rfl <;>
      rw [Raft.stampMessage_pos _ (by exact hpos.ne')]
    · exact ⟨by rw [ho.id]; exact h.core.mem,by rw [ho.id]; exact h.ne,hpos,trivial⟩
    · exact fun _ hne => absurd rfl hne
    · exact fun hp => by cases hp
  · exact Reaches.refl h.core

private theorem backs (h : Delivery S H n r m) (hterm : m.term = r.term) {r₁ : Raft} (hb : r.Backs m r₁) :
    Follows S H n r₁ m where
  core := by
    cases hb with
    | follower => exact ⟨h.core.mem,h.core.good,{ h.core.ok with lead := fun _ => hterm ▸ h.msg.term }⟩
    | candidate => exact h.core.becomeFollower m.term m.sender hterm.ge fun _ => h.msg.term
  state := hb.state
  msg := h.msg
  term := hterm.trans (hb.follows hterm).1.symm
  dest := h.dest

private theorem handled (h : Delivery S H n r m)
    (hterm : m.term = r.term ∨ m.type = .preVote ∨ m.type = .preVoteResp) {r' : Raft} {calls : List (Raft × Nat)}
    (hr : r.Handled m r' calls) : Reaches S H n r r' := by
  cases hr with
  | idle => exact Reaches.refl h.core
  | request ht =>
    refine h.core.handleVoteRequest h.msg h.ne (ht.imp_right fun ht => ⟨ht,hterm.resolve_right ?_⟩)
    rw [ht]
    simp
  | heard r₁ _ hb hr =>
    have hmt : m.term = r.term := hterm.resolve_right fun ht =>
      ht.elim hr.fromLeader.other.2.1 hr.fromLeader.other.2.2
    have hr₁ := (hb.follows hmt).1
    exact .after (Frame.refl n H) hr₁.ge (fun hh => by rwa [hr₁])
      ((h.backs hmt hb).heard (by rw [hb.kept.2.1]; exact h.clean) hr)
  | ballot hs =>
    refine h.core.handleVoteResp (hs.imp (·.1) (·.1)) fun hc hrej => ⟨h.msg.sender,?_⟩
    obtain ⟨_,hty⟩ := hs.resolve_left fun hs => by simp [hs.1] at hc
    have hcont := h.msg.content
    simp only [Content,hty] at hcont
    obtain ⟨b,hb,hbc⟩ := hcont hrej
    have hmt := hterm.resolve_right (by rw [hty]; simp)
    exact ⟨b,hmt ▸ hb,hbc.trans h.dest⟩
  | report _ _ hs hr =>
    refine (Leading.reported ⟨h.core,hs,rfl⟩ h.msg h.ne (fun ht => hterm.resolve_right ?_) hr).reaches le_rfl
    rcases ht with ht | ht <;> rw [ht] <;> simp

private theorem stepped (h : Delivery S H n r m) {r' : Raft} {calls : List (Raft × Nat)} (hr : r.Stepped m r' calls) :
    Reaches S H n r r' := by
  have hc := h.msg.content
  cases hr with
  | ignored ht | proposed _ ht | read ht => simp only [Content,ht] at hc
  | sticky hs => exact h.rejectSticky hs
  | stale hlt => exact h.rejectStale hlt
  | role _ _ _ hp hr =>
    refine h.handled ?_ hr
    rcases hp with hz | ht | ⟨_,ht⟩
    · exact absurd hz h.msg.term.ne'
    · exact .inl ht
    · exact .inr (ht.imp_right (·.1))
  | adopts _ _ _ hgt _ _ hr =>
    have hb := h.core.becomeFollower m.term
      (if m.type = .vote then None else m.sender) (Nat.le_of_lt hgt) fun _ => h.msg.term
    exact .after (Frame.refl n H) (Nat.le_of_lt hgt) (fun _ => h.core.ok.durable.holds hgt)
      (handled ⟨hb,h.msg,h.dest,h.clean⟩ (.inl rfl) hr)

end Delivery

theorem At.tick (h : At S H n r) : Reaches S H n r r.tick := by
  unfold Raft.tick
  split
  · rename_i hs
    unfold Raft.tickHeartbeat
    simp only
    have hL : Leading S H n r.term { r with heartbeatElapsed := 0 } := ⟨⟨h.mem,h.good,{ h.ok with }⟩,hs,rfl⟩
    split
    · exact Reaches.of_ok h hL.bcastHeartbeat.core.ok hL.bcastHeartbeat.term.symm
    · exact Reaches.of_ok h { h.ok with } rfl
  · rename_i hs
    exact h.tickElection fun hl => hs hl

theorem At.run (h : At S H n r) (hclean : r.raftLog.Clean) {i : Input}
    (hi : ∀ m, i = .step m → m.type = .propose ∨ m.type = .readIndex ∨ (MsgOK S H m ∧ m.dest = n)) :
    Reaches S H n r (i.run r) := by
  cases i with
  | tick => exact h.tick
  | step m =>
    change Reaches S H n r (r.step m).1
    rcases hi m rfl with ht | ht | ⟨hm,hd⟩
    · have : r.step m = r.stepPropose m := by simp [Raft.step,ht]
      rw [this]
      exact h.stepPropose m
    · have : r.step m = r.stepReadIndex m := by simp [Raft.step,ht]
      rw [this]
      exact h.stepReadIndex m
    · exact Delivery.stepped ⟨h,hm,hd,hclean⟩ (r.step_stepped m)

end Parallax.Cluster
