import Parallax.Raft.Outbox

/-! The reads a leader has in hand. A gauge says which contexts were asked for, which of them
are of interest, and which indices and which acknowledging nodes are good enough for those;
a leader that is fed good acknowledgements releases good reads. -/
namespace Parallax

structure Gauge where
  asked : Bytes → Prop
  fresh : Bytes → Prop
  high : Nat → Prop
  clean : Nat → Prop

/-- A pending read as the gauge wants it. -/
def Gauge.Pending (G : Gauge) (ctx : Bytes) (rs : ReadIndexStatus) : Prop :=
  G.asked ctx ∧ (G.fresh ctx → G.high rs.index ∧ ∀ v ∈ rs.acks, G.clean v)

/-- A released read as the gauge wants it, in a cluster of `size` members. -/
def Gauge.Released (G : Gauge) (size : Nat) (rs : ReadState) : Prop :=
  G.asked rs.requestCtx ∧ (G.fresh rs.requestCtx →
    G.high rs.index ∧ ∃ A : Finset Nat, size / 2 < A.card ∧ ∀ v ∈ A, G.clean v)

namespace ReadOnly
variable {G : Gauge} {ro : ReadOnly}

def Judged (G : Gauge) (ro : ReadOnly) : Prop :=
  ∀ ctx rs, ro.pendingReadIndex.lookup ctx = some rs → G.Pending ctx rs

theorem Judged.insert (h : ro.Judged G) {ctx : Bytes} {rs : ReadIndexStatus} (hp : G.Pending ctx rs)
    (queue : List Bytes) : Judged G { pendingReadIndex := ro.pendingReadIndex.insert ctx rs, readIndexQueue := queue } := by
  intro c rs' hc
  by_cases he : c = ctx
  · subst he
    obtain rfl : rs = rs' := by simpa using hc
    exact hp
  · exact h c rs' (by simpa [AList.lookup_insert_ne he] using hc)

theorem Judged.addRequest (h : ro.Judged G) {idx : Nat} {m : Message} (ha : G.asked m.context) (hi : G.high idx) :
    (ro.addRequest idx m).Judged G := by
  unfold ReadOnly.addRequest
  split
  · exact h
  · exact h.insert ⟨ha,fun _ => ⟨hi,by simp⟩⟩ _

theorem Judged.recvAck (h : ro.Judged G) {id : Nat} {ctx : Bytes} (hc : G.fresh ctx → G.clean id) :
    (ro.recvAck id ctx).1.Judged G := by
  unfold ReadOnly.recvAck
  split
  · exact h
  rename_i rs hrs
  have hp : G.Pending ctx { rs with acks := Insert.insert id rs.acks } := by
    refine ⟨(h ctx rs hrs).1,fun hf => ⟨((h ctx rs hrs).2 hf).1,fun v hv => ?_⟩⟩
    rcases Finset.mem_insert.mp hv with rfl | hv
    · exact hc hf
    · exact ((h ctx rs hrs).2 hf).2 v hv
  exact h.insert hp _

theorem recvAck_count (ro : ReadOnly) (id : Nat) (ctx : Bytes) (h : 0 < (ro.recvAck id ctx).2) :
    ∃ rs, (ro.recvAck id ctx).1.pendingReadIndex.lookup ctx = some rs ∧ rs.acks.card = (ro.recvAck id ctx).2 := by
  unfold ReadOnly.recvAck at h ⊢
  split at h
  · exact absurd h (Nat.lt_irrefl 0)
  rename_i rs hrs
  exact ⟨_,AList.lookup_insert _,rfl⟩

theorem Judged.advance (h : ro.Judged G) (hw : ro.WF)
    (ho : ro.readIndexQueue.Pairwise fun a b => G.fresh a → G.fresh b) {ctx : Bytes} {st : ReadIndexStatus}
    (hst : ro.pendingReadIndex.lookup ctx = some st) {size : Nat} (hq : size / 2 < st.acks.card) :
    (ro.advance ctx).1.Judged G ∧ (ro.advance ctx).1.readIndexQueue.Sublist ro.readIndexQueue ∧
      ∀ rs ∈ (ro.advance ctx).2, G.Released size { index := rs.index, requestCtx := rs.req.context } := by
  rcases hw.advance_cases ctx with he | ⟨front,rss,hqueue,hrss,hmap,hl⟩
  · rw [he]
    exact ⟨h,List.Sublist.refl _,by simp⟩
  refine ⟨fun c rs hc => ?_,?_,fun rs hrs => ?_⟩
  · rw [hl] at hc
    split_ifs at hc
    exact h c rs hc
  · conv_rhs => rw [hqueue,List.append_cons]
    exact List.sublist_append_right _ _
  rw [hrss] at hrs
  have hsome : some rs ∈ (front ++ [ctx]).map ro.pendingReadIndex.lookup := by
    rw [hmap]
    exact List.mem_map_of_mem hrs
  obtain ⟨c,hc,hlook⟩ := List.mem_map.mp hsome
  have hfresh : G.fresh c → G.fresh ctx := by
    intro hf
    rw [hqueue,List.append_cons] at ho
    rcases List.mem_append.mp hc with hc | hc
    · exact (List.pairwise_append.mp (List.pairwise_append.mp ho).1).2.2 c hc ctx (by simp) hf
    · exact List.mem_singleton.mp hc ▸ hf
  rw [Gauge.Released,hw.key c rs hlook]
  obtain ⟨ha,hp⟩ := h c rs hlook
  exact ⟨ha,fun hf => ⟨(hp hf).1,st.acks,hq,((h ctx st hst).2 (hfresh hf)).2⟩⟩

end ReadOnly

namespace Raft
variable {G : Gauge} {r r' : Raft}

/-- The reads of `r`, with the messages `ws` still waiting for the current-term gate. -/
structure Asks (G : Gauge) (r : Raft) (ws : List Message) : Prop where
  wf : r.readOnly.WF
  status : r.readOnly.Judged G
  waiting : ∀ m ∈ ws, G.asked m.context
  order : (r.readOnly.readIndexQueue ++ ws.map (·.context)).Pairwise fun a b => G.fresh a → G.fresh b
  released : ∀ rs ∈ r.readStates, G.Released r.peers.length rs

/-- Between inputs, reads wait only while the gate is closed. -/
structure Asking (G : Gauge) (r : Raft) : Prop extends Asks G r r.pendingReadIndexMessages where
  gate : r.committedEntryInCurrentTerm = true → r.pendingReadIndexMessages = []

/-- `r'` has the reads, the log and the term of `r`. -/
structure Rests (r r' : Raft) : Prop extends KeepsReads r r' where
  raftLog : r'.raftLog = r.raftLog
  term : r'.term = r.term
  peers : r'.peers = r.peers
  id : r'.id = r.id

theorem Rests.refl (r : Raft) : Rests r r := ⟨.refl r,rfl,rfl,rfl,rfl⟩

theorem Rests.trans {r'' : Raft} (h : Rests r r') (h' : Rests r' r'') : Rests r r'' :=
  ⟨h.toKeepsReads.trans h'.toKeepsReads,h'.raftLog.trans h.raftLog,h'.term.trans h.term,
    h'.peers.trans h.peers,h'.id.trans h.id⟩

theorem Same.rests (h : Same r r') (hk : KeepsReads r r') : Rests r r' :=
  ⟨hk,h.raftLog,h.term,h.peers,h.id⟩

theorem Rests.gate (h : Rests r r') : r'.committedEntryInCurrentTerm = r.committedEntryInCurrentTerm := by
  unfold committedEntryInCurrentTerm
  rw [h.raftLog,h.term]

private theorem send_rests (r : Raft) (m : Message) : Rests r (r.send m) := (r.send_same m).rests ⟨rfl,rfl,rfl⟩

theorem prs_rests (r : Raft) (prs : AList (fun _ : Nat => Progress)) : Rests r { r with prs := prs } :=
  ⟨⟨rfl,rfl,rfl⟩,rfl,rfl,rfl,rfl⟩

/-- The log and the outbox play no part. -/
theorem Asks.transfer {ws : List Message} (h : Asks G r ws) (ho : r'.readOnly = r.readOnly)
    (hs : r'.readStates ⊆ r.readStates) (hp : r'.peers.length = r.peers.length) : Asks G r' ws where
  wf := ho ▸ h.wf
  status := ho ▸ h.status
  waiting := h.waiting
  order := ho ▸ h.order
  released rs hrs := hp ▸ h.released rs (hs hrs)

theorem Asking.transfer (h : Asking G r) (ho : r'.readOnly = r.readOnly)
    (hw : r'.pendingReadIndexMessages = r.pendingReadIndexMessages) (hs : r'.readStates ⊆ r.readStates)
    (hp : r'.peers.length = r.peers.length)
    (hg : r'.committedEntryInCurrentTerm = true → r.committedEntryInCurrentTerm = true) : Asking G r' :=
  ⟨hw ▸ h.toAsks.transfer ho hs hp,fun hg' => hw ▸ h.gate (hg hg')⟩

theorem Asking.rests (h : Asking G r) (hr : Rests r r') : Asking G r' :=
  h.transfer hr.readOnly hr.pending (by rw [hr.readStates]; exact fun _ h => h) (by rw [hr.peers])
    fun hg => hr.gate ▸ hg

/-- A leader without any reads. -/
theorem Asking.fresh (ho : r.readOnly = {}) (hw : r.pendingReadIndexMessages = []) (hs : r.readStates = []) :
    Asking G r where
  wf := ho ▸ ReadOnly.WF.empty
  status := by
    intro ctx rs h
    simp [ho] at h
  waiting := by simp [hw]
  order := by simp [ho,hw]
  released := by simp [hs]
  gate _ := hw

theorem Asking.mono {G' : Gauge} (h : Asking G r) (ha : ∀ c, G.asked c → G'.asked c)
    (hf : ∀ c, G.asked c → ¬ G'.fresh c) : Asking G' r where
  wf := h.wf
  status ctx rs hrs := ⟨ha ctx (h.status ctx rs hrs).1,fun hc => absurd hc (hf ctx (h.status ctx rs hrs).1)⟩
  waiting m hm := ha _ (h.waiting m hm)
  order := by
    refine List.Pairwise.imp_of_mem ?_ (List.pairwise_of_forall fun _ _ => trivial)
    intro a b hmem _ _ hfa
    refine absurd hfa (hf a ?_)
    rcases List.mem_append.mp hmem with hmem | hmem
    · obtain ⟨rs,hrs⟩ := Option.isSome_iff_exists.mp ((h.wf.mem a).mp hmem)
      exact (h.status a rs hrs).1
    · obtain ⟨m,hm,rfl⟩ := List.mem_map.mp hmem
      exact h.waiting m hm
  released rs hrs := ⟨ha _ (h.released rs hrs).1,fun hc => absurd hc (hf _ (h.released rs hrs).1)⟩
  gate := h.gate

theorem sendReadIndex_pending (r : Raft) (m : Message) :
    (r.sendReadIndex m).pendingReadIndexMessages = r.pendingReadIndexMessages := by
  unfold sendReadIndex
  split
  · rfl
  · exact (bcastHeartbeatWithCtx_keepsReads _ _).pending

theorem Asks.sendReadIndex {m : Message} {ws : List Message} (h : Asks G r (m :: ws))
    (hh : G.high r.raftLog.committed) (hid : G.clean r.id) : Asks G (r.sendReadIndex m) ws := by
  have hask := h.waiting m (by simp)
  have hsub : (r.readOnly.readIndexQueue ++ ws.map (·.context)).Sublist
      (r.readOnly.readIndexQueue ++ (m :: ws).map (·.context)) :=
    List.Sublist.append_left (List.sublist_cons_self _ _) _
  unfold Raft.sendReadIndex
  split
  · rename_i hone
    refine ⟨h.wf,h.status,fun m' hm' => h.waiting m' (by simp [hm']),h.order.sublist hsub,fun rs hrs => ?_⟩
    rcases List.mem_append.mp hrs with hrs | hrs
    · exact h.released rs hrs
    obtain rfl := List.mem_singleton.mp hrs
    refine ⟨hask,fun _ => ⟨hh,{r.id},?_,by simpa using hid⟩⟩
    change r.peers.length / 2 < _
    simp [hone]
  have hs : Asks G { r with
      readOnly := ((r.readOnly.addRequest r.raftLog.committed m).recvAck r.id m.context).1 } ws := by
    refine ⟨(h.wf.addRequest _ m).recvAck _ _,(h.status.addRequest hask hh).recvAck fun _ => hid,
      fun m' hm' => h.waiting m' (by simp [hm']),?_,h.released⟩
    simp only [ReadOnly.recvAck_queue]
    unfold ReadOnly.addRequest
    split
    · exact h.order.sublist hsub
    · simpa using h.order
  have hk := bcastHeartbeatWithCtx_keepsReads { r with
    readOnly := ((r.readOnly.addRequest r.raftLog.committed m).recvAck r.id m.context).1 } m.context
  have hsame := bcastHeartbeatWithCtx_same { r with
    readOnly := ((r.readOnly.addRequest r.raftLog.committed m).recvAck r.id m.context).1 } m.context
  exact hs.transfer hk.readOnly (by rw [hk.readStates]; exact fun _ h => h) (by rw [hsame.peers])

theorem Asks.foldl_sendReadIndex (ms : List Message) : ∀ {r : Raft}, Asks G r ms → G.high r.raftLog.committed →
    G.clean r.id → Asks G (ms.foldl Raft.sendReadIndex r) [] := by
  induction ms with
  | nil => exact fun h _ _ => h
  | cons m ms ih =>
    intro r h hh hid
    have hs := r.sendReadIndex_same m
    exact ih (h.sendReadIndex hh hid) (hs.raftLog ▸ hh) (hs.id ▸ hid)

theorem foldl_sendReadIndex_pending (ms : List Message) : ∀ r : Raft,
    (ms.foldl Raft.sendReadIndex r).pendingReadIndexMessages = r.pendingReadIndexMessages := by
  induction ms with
  | nil => exact fun _ => rfl
  | cons m ms ih => exact fun r => (ih _).trans (r.sendReadIndex_pending m)

/-- An index is high enough once an entry of the current term is committed. -/
def Gated (G : Gauge) (r : Raft) : Prop := r.committedEntryInCurrentTerm = true → G.high r.raftLog.committed

theorem Asks.release (h : Asks G r r.pendingReadIndexMessages) (hl : r.state = .leader) (hh : Gated G r)
    (hid : G.clean r.id) : Asking G r.releasePendingReadIndexMessages := by
  unfold releasePendingReadIndexMessages
  by_cases hg : r.committedEntryInCurrentTerm = true
  · rw [if_neg (by simp [hl,hg])]
    have h₀ : Asks G { r with pendingReadIndexMessages := [] } r.pendingReadIndexMessages :=
      h.transfer rfl (fun _ h => h) rfl
    have hp := foldl_sendReadIndex_pending r.pendingReadIndexMessages { r with pendingReadIndexMessages := [] }
    refine ⟨?_,fun _ => hp⟩
    rw [hp]
    exact h₀.foldl_sendReadIndex _ (hh hg) hid
  · rw [if_pos (.inr (by simpa using hg))]
    exact ⟨h,fun h => absurd h hg⟩

theorem Asking.maybeCommit (h : Asking G r) (hl : r.state = .leader) (hh : Gated G r.maybeCommit.1)
    (hid : G.clean r.id) : Asking G r.maybeCommit.1 := by
  unfold Raft.maybeCommit at hh ⊢
  split
  · exact h.rests ((r.panic_same _).rests ⟨rfl,rfl,rfl⟩)
  rename_i ms hms
  simp only [hms] at hh ⊢
  split
  · exact h.rests ((r.panic_same _).rests ⟨rfl,rfl,rfl⟩)
  rename_i mci hmci
  simp only [hmci] at hh ⊢
  split
  · exact h
  rename_i l hc
  simp only [hc] at hh
  have hsame := releasePendingReadIndexMessages_same { r with raftLog := l }
  have h₀ : Asks G { r with raftLog := l } r.pendingReadIndexMessages := h.toAsks.transfer rfl (fun _ h => h) rfl
  refine h₀.release hl (fun hg => ?_) hid
  have := hh (by unfold committedEntryInCurrentTerm at hg ⊢; rw [hsame.raftLog,hsame.term]; exact hg)
  rwa [hsame.raftLog] at this

/-- Appending to the log leaves the commit index and the entry there alone. -/
def GateKept (r : Raft) : Prop := ∀ es, ({ r with
  raftLog := r.raftLog.append (stampEntries r.term r.raftLog.lastIndex es) } : Raft).committedEntryInCurrentTerm = true →
    r.committedEntryInCurrentTerm = true

theorem Asking.appendEntry (h : Asking G r) (hl : r.state = .leader) (hk : GateKept r) (es : List Entry)
    (hh : Gated G (r.appendEntry es)) (hid : G.clean r.id) : Asking G (r.appendEntry es) := by
  unfold Raft.appendEntry at hh ⊢
  simp only at hh ⊢
  split
  · exact h.transfer rfl rfl (fun _ h => h) rfl (hk es)
  rename_i pr hpr
  simp only [hpr] at hh
  have h₀ : Asking G { r with
      raftLog := r.raftLog.append (stampEntries r.term r.raftLog.lastIndex es)
      prs := r.prs.insert r.id (pr.maybeUpdate
        (r.raftLog.append (stampEntries r.term r.raftLog.lastIndex es)).lastIndex).1 } :=
    h.transfer rfl rfl (fun _ h => h) rfl (hk es)
  exact h₀.maybeCommit hl hh hid

theorem Gated.rests (h : Gated G r') (hr : Rests r r') : Gated G r := fun hg => by
  rw [← hr.raftLog]
  exact h (hr.gate.trans hg)

theorem bcastAppend_rests (r : Raft) : Rests r r.bcastAppend := r.bcastAppend_same.rests r.bcastAppend_keepsReads

theorem sendAppend_rests (r : Raft) (id : Nat) : Rests r (r.sendAppend id) :=
  (r.sendAppend_same id).rests (r.sendAppend_keepsReads id)

theorem Asking.confirmReads (h : Asking G r) (m : Message)
    (hack : m.context ≠ [] → G.fresh m.context → G.clean m.sender) : Asking G (r.confirmReads m) := by
  unfold Raft.confirmReads
  by_cases hctx : m.context.length = 0
  · rw [if_pos hctx]
    exact h
  rw [if_neg hctx]
  have hne : m.context ≠ [] := fun he => hctx (by rw [he]; rfl)
  have hj : (r.readOnly.recvAck m.sender m.context).1.Judged G := h.status.recvAck (hack hne)
  have hw := h.wf.recvAck m.sender m.context
  have hq := ReadOnly.recvAck_queue r.readOnly m.sender m.context
  simp only
  split
  · exact ⟨⟨hw,hj,h.waiting,by simp only [hq]; exact h.order,h.released⟩,h.gate⟩
  rename_i hcount
  have hquo : r.peers.length / 2 < (r.readOnly.recvAck m.sender m.context).2 := Nat.not_lt.mp hcount
  obtain ⟨st,hst,hcard⟩ := ReadOnly.recvAck_count r.readOnly m.sender m.context (by omega)
  have ho := (List.pairwise_append.mp h.order).1
  rw [← hq] at ho
  obtain ⟨h1,h2,h3⟩ := hj.advance hw ho hst (hcard ▸ hquo)
  refine ⟨⟨hw.advance _,h1,h.waiting,h.order.sublist (List.Sublist.append_right (hq ▸ h2) _),fun rs hrs => ?_⟩,h.gate⟩
  rcases List.mem_append.mp hrs with hrs | hrs
  · exact h.released rs hrs
  · obtain ⟨st',hst',rfl⟩ := List.mem_map.mp hrs
    exact h3 st' hst'

theorem catchUp_rests (r : Raft) (id : Nat) : Rests r (r.catchUp id) := by
  unfold catchUp
  split
  · exact .refl r
  split
  · exact r.sendAppend_rests id
  · exact .refl r

theorem Asks.snoc {ws : List Message} {m : Message} (h : Asks G r ws) (ha : G.asked m.context)
    (hf : ∀ c, G.fresh c → G.fresh m.context) : Asks G r (ws ++ [m]) where
  wf := h.wf
  status := h.status
  waiting m' hm' := by
    rcases List.mem_append.mp hm' with hm' | hm'
    · exact h.waiting m' hm'
    · exact List.mem_singleton.mp hm' ▸ ha
  order := by
    rw [List.map_append,← List.append_assoc]
    refine List.pairwise_append.mpr ⟨h.order,List.pairwise_singleton _ _,fun a _ b hb => ?_⟩
    obtain rfl := List.mem_singleton.mp hb
    exact hf a
  released := h.released

theorem Asking.stepReadIndex (h : Asking G r) (m : Message) (ha : G.asked m.context)
    (hf : ∀ c, G.fresh c → G.fresh m.context) (hh : Gated G r) (hid : G.clean r.id) :
    Asking G (r.stepReadIndex m).1 := by
  unfold Raft.stepReadIndex
  split
  · exact h
  have hs := h.toAsks.snoc ha hf
  split
  · rename_i hg
    rw [h.gate hg] at hs
    have hp := (r.sendReadIndex_pending m).trans (h.gate hg)
    exact ⟨by rw [hp]; exact hs.sendReadIndex (hh hg) hid,fun _ => hp⟩
  · rename_i hg
    exact ⟨hs.transfer rfl (fun _ h => h) rfl,fun h => absurd h hg⟩

theorem handleVoteRequest_rests (r : Raft) (m : Message) : Rests r (r.handleVoteRequest m) := by
  unfold handleVoteRequest
  split
  · exact (r.panic_same _).rests ⟨rfl,rfl,rfl⟩
  simp only
  split
  · exact r.send_rests _
  split
  · have h₀ : Rests r { r with vote := m.sender, electionElapsed := 0 } := ⟨⟨rfl,rfl,rfl⟩,rfl,rfl,rfl,rfl⟩
    exact h₀.trans (send_rests _ _)
  · exact r.send_rests _

theorem rejectSticky_rests (r : Raft) (m : Message) : Rests r (r.rejectSticky m) := by
  unfold rejectSticky
  split <;> exact r.send_rests _

theorem rejectStale_rests (r : Raft) (m : Message) : Rests r (r.rejectStale m) := by
  unfold rejectStale
  split
  · exact r.send_rests _
  · exact r.send_rests _
  · exact r.send_rests _
  · exact r.send_rests _
  · exact .refl r

theorem tick_rests (hl : r.state = .leader) : Rests r r.tick := by
  unfold Raft.tick
  simp only [hl]
  unfold tickHeartbeat
  simp only
  split
  · have h₀ : Rests r { r with heartbeatElapsed := 0 } := ⟨⟨rfl,rfl,rfl⟩,rfl,rfl,rfl,rfl⟩
    exact h₀.trans ((bcastHeartbeat_same _).rests (bcastHeartbeat_keepsReads _))
  · exact ⟨⟨rfl,rfl,rfl⟩,rfl,rfl,rfl,rfl⟩

/-- What a message does to the reads of a node that leads before and after it. -/
inductive Tends (r : Raft) (m : Message) (r' : Raft) : Prop
  | rests (hr : Rests r r')
  | commits (r₁ : Raft) (hs : r₁.state = r.state) (hr : Rests r r₁) (hr' : Rests r₁.maybeCommit.1 r')
  | appends (es : List Entry) (hr : Rests (r.appendEntry es) r')
  | asks (ht : m.type = .readIndex) (heq : r' = (r.stepReadIndex m).1)
  | confirms (r₁ : Raft) (ht : m.type = .heartbeatResp) (hterm : m.term = r.term) (hr : Rests r r₁)
      (heq : r' = r₁.confirmReads m)

private theorem Reported.tends {m : Message} {calls : List (Raft × Nat)} (h : Reported r m r' calls)
    (hterm : m.type = .heartbeatResp → m.term = r.term) : Tends r m r' := by
  cases h with
  | idle => exact .rests (.refl r)
  | refused | installed => exact .rests ((r.prs_rests _).trans (sendAppend_rests _ _))
  | acked => exact .rests (r.prs_rests _)
  | held pr =>
    exact .commits { r with prs := r.prs.insert m.sender (pr.maybeUpdate m.logIndex).1 } rfl (r.prs_rests _) (.refl _)
  | committed pr r₁ _ _ _ hc =>
    exact .commits { r with prs := r.prs.insert m.sender (pr.maybeUpdate m.logIndex).1 } rfl (r.prs_rests _)
      (hc ▸ r₁.bcastAppend_rests)
  | beat ht => exact .confirms _ ht (hterm ht) (r.catchUp_rests m.sender) rfl

theorem Stepped.tends {m : Message} {calls : List (Raft × Nat)} (h : Stepped r m r' calls)
    (hpos : m.type = .propose ∨ m.type = .readIndex ∨ 0 < m.term) (hl : r.state = .leader) (hl' : r'.state = .leader) :
    Tends r m r' := by
  cases h with
  | ignored => exact .rests (.refl r)
  | proposed _ _ _ _ hr =>
    subst hr
    exact .appends _ (bcastAppend_rests _)
  | read ht => exact .asks ht rfl
  | sticky => exact .rests (r.rejectSticky_rests m)
  | stale => exact .rests (r.rejectStale_rests m)
  | role _ _ hloc hp h =>
    rcases h.led hl with rfl | h
    · exact .rests (r.handleVoteRequest_rests m)
    · exact h.tends fun ht => (hp.term hloc hpos).2 (by simp [ht]) (by simp [ht])
  | adopts _ _ _ _ _ _ h =>
    rw [(h.down rfl).1] at hl'
    cases hl'

section input
variable (h : Asking G r) (hl : r.state = .leader) (hid : G.clean r.id)
include h hl hid

/-- A leader that takes a message and still leads. -/
theorem Asking.step {m : Message} (hpos : m.type = .propose ∨ m.type = .readIndex ∨ 0 < m.term) (hk : GateKept r)
    (hl' : (r.step m).1.state = .leader) (hh : Gated G (r.step m).1)
    (hask : m.type = .readIndex → G.asked m.context ∧ ∀ c, G.fresh c → G.fresh m.context)
    (hack : m.type = .heartbeatResp → m.term = r.term → m.context ≠ [] → G.fresh m.context → G.clean m.sender) :
    Asking G (r.step m).1 := by
  cases (r.step_stepped m).tends hpos hl hl' with
  | rests hr => exact h.rests hr
  | commits r₁ hs hr hr' => exact ((h.rests hr).maybeCommit (hs.trans hl) (hh.rests hr') (hr.id ▸ hid)).rests hr'
  | appends es hr => exact (h.appendEntry hl hk es (hh.rests hr) hid).rests hr
  | asks ht heq =>
    have hs := r.stepReadIndex_same m
    rw [heq] at hh ⊢
    refine h.stepReadIndex m (hask ht).1 (hask ht).2 (fun hg => ?_) hid
    rw [← hs.raftLog]
    exact hh (by unfold committedEntryInCurrentTerm at hg ⊢; rw [hs.raftLog,hs.term]; exact hg)
  | confirms r₁ ht hterm hr heq =>
    rw [heq]
    exact (h.rests hr).confirmReads m (hack ht hterm)

omit hid in
theorem Asking.tick : Asking G r.tick := h.rests (tick_rests hl)

end input

end Raft
end Parallax
