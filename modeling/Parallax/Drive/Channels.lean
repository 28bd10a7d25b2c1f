import Parallax.Drive.Reading

/-! The answer channels of a node, whatever its peers and clients send: each is sent to at most once, with the result
that its request asks for. -/
namespace Parallax

theorem AList.entries_perm_erase {α : Type} {β : α → Type} [DecidableEq α] {l : AList β} {a : α} {b : β a}
    (h : l.lookup a = some b) : l.entries.Perm (⟨a,b⟩ :: (l.erase a).entries) := by
  have hmem : (⟨a,b⟩ : Sigma β) ∈ l.entries := AList.mem_lookup_iff.mp h
  have hkey : a ∈ l.entries.keys := List.mem_keys_of_mem hmem
  obtain ⟨b',l₁,l₂,-,hl,he⟩ := List.exists_of_kerase hkey
  have hb : b' = b := l.nodupKeys.eq_of_mk_mem (by rw [hl]; simp) hmem
  change l.entries.Perm (⟨a,b⟩ :: l.entries.kerase a)
  rw [he,hl,hb]
  exact List.perm_middle

theorem Raft.step_leader_term {r : Raft} {m : Message} (hl : r.state = .leader) (hl' : (r.step m).1.state = .leader) :
    (r.step m).1.term = r.term := by
  have h := r.step_stepped m
  generalize (r.step m).1 = r', r.stepCalls m = calls at h hl' ⊢
  cases h with
  | ignored => rfl
  | proposed _ _ _ _ hr => rw [(bcastAppend_same _).term,hr,(appendEntry_keeps _ _).term]
  | read => exact (r.stepReadIndex_same m).term
  | sticky => exact (r.rejectSticky_same m).term
  | stale => exact (r.rejectStale_same m).term
  | role _ _ _ _ h =>
    rcases h.led hl with rfl | h
    · exact (r.handleVoteRequest_keeps m).term
    · exact h.keeps.term
  | adopts _ _ _ _ _ _ h =>
    rw [(h.down rfl).1] at hl'
    cases hl'

namespace Drive
open Kv StateMachine

/-- A step of the drive loop: an input with the leadership check behind it, or one batch of the drain. -/
inductive Act where
  | input (i : Input)
  | round
  deriving DecidableEq, Repr

def Act.request? : Act → Option Request
  | .input (.request req) => some req
  | _ => none

/-- The requests among the steps, in order. -/
def requests (as : List Act) : List Request := as.filterMap Act.request?

namespace Server
variable {maxSegmentSize : Nat} {s s' s₀ : Server} {rd : Ready}

/-- `none` where a panic or an error ends the loop. -/
def act (maxSegmentSize : Nat) (s : Server) : Act → Option Server
  | .input i => if (s.handle i).node.failed then none else some (s.handle i).checkLeadership
  | .round => if s.node.hasReady then (s.round maxSegmentSize).2.toOption else none

/-- Any steps in any order; the loop takes its next input once the core has nothing ready. -/
def acts (maxSegmentSize : Nat) (s : Server) (as : List Act) : Option Server := as.foldlM (act maxSegmentSize) s

private theorem acts_append (as as' : List Act) :
    s.acts maxSegmentSize (as ++ as') = (s.acts maxSegmentSize as).bind (acts maxSegmentSize · as') := by
  simp [acts,List.foldlM_append]

private theorem acts_concat (as : List Act) (a : Act) :
    s.acts maxSegmentSize (as ++ [a]) = (s.acts maxSegmentSize as).bind (act maxSegmentSize · a) := by
  rw [acts_append]
  congr 1
  funext t
  simp [acts]

theorem drain_acts {i : Input} {ms : List Message} (hf : (s.handle i).node.failed = false)
    (h : (s.handle i).drain maxSegmentSize = (ms,.ok s')) :
    ∃ k, s.acts maxSegmentSize (.input i :: List.replicate k .round) = some s' := by
  have hloop : ∀ fuel {s : Server} {ms : List Message}, s.drainLoop maxSegmentSize fuel = (ms,.ok s') →
      ∃ k, s.acts maxSegmentSize (List.replicate k .round) = some s' := by
    intro fuel
    induction fuel with
    | zero =>
      intro s ms h
      exact ⟨0,congrArg some (Except.ok.inj (Prod.mk.inj h).2)⟩
    | succ fuel ih =>
      intro s ms h
      unfold drainLoop at h
      split at h
      · rename_i hready
        split at h
        · cases (Prod.mk.inj h).2
        rename_i s₁ hround
        obtain ⟨k,hk⟩ := ih (Prod.ext rfl (Prod.mk.inj h).2)
        refine ⟨k + 1,?_⟩
        have hact : s.act maxSegmentSize .round = some s₁ := by
          rw [act,if_pos hready,hround]
          rfl
        rw [List.replicate_succ,acts,List.foldlM_cons,hact]
        exact hk
      · exact ⟨0,congrArg some (Except.ok.inj (Prod.mk.inj h).2)⟩
  obtain ⟨k,hk⟩ := hloop _ h
  refine ⟨k,?_⟩
  have hact : s.act maxSegmentSize (.input i) = some (s.handle i).checkLeadership := by
    rw [act,hf]
    rfl
  rw [acts,List.foldlM_cons,hact]
  exact hk

/-- The channels that are waited on or were sent to. -/
def chans (s : Server) : List Chan := s.waiting ++ s.replies.map (·.resp)

private theorem chans_serveRead (s : Server) (rs : ReadState) : (s.serveRead rs).chans.Perm s.chans := by
  unfold serveRead
  split
  · exact .refl _
  rename_i w hw
  have hreads := (AList.entries_perm_erase hw).map fun w => w.2.resp
  simp only [chans,waiting,reply,List.map_cons,List.append_assoc] at hreads ⊢
  refine .append_left _ ?_
  exact List.perm_middle.trans (hreads.symm.append_right _)

private theorem chans_completeWrite (s : Server) (op : ClientKey) (res : Result) :
    (s.completeWrite op res).chans.Perm s.chans := by
  unfold completeWrite
  split
  · exact .refl _
  rename_i resp hresp
  have hwrites := (AList.entries_perm_erase hresp).map fun w => w.2
  simp only [chans,waiting,reply,List.map_cons] at hwrites ⊢
  exact List.perm_middle.trans ((hwrites.symm.append_right _).append_right _)

private theorem chans_checkLeadership (s : Server) : s.checkLeadership.chans.Perm s.chans := by
  unfold checkLeadership
  simp only
  split
  · rw [foldl_notLeader]
    simp only [chans,waiting,AList.empty_entries,List.map_nil,List.nil_append,List.map_append,List.map_reverse,List.map_map]
    refine .append_right _ ((List.reverse_perm _).trans ?_)
    simp [Function.comp_def]
  · exact .refl _

/-- The channel an input brings. -/
def opens (s : Server) : Input → List Chan
  | .request req => [⟨s.requests,req⟩]
  | _ => []

private theorem handle_requests (s : Server) (i : Input) : (s.handle i).requests = s.requests + (s.opens i).length := by
  cases i with
  | tick | recv m => rfl
  | request req => cases req <;> (simp only [handle,handleRequest]; split <;> rfl)

private theorem chans_handle (s : Server) (i : Input) : (s.handle i).chans.Subperm (s.opens i ++ s.chans) := by
  cases i with
  | tick | recv m => exact .refl _
  | request req =>
    have hrefused : ∀ r : Reply, r.resp = ⟨s.requests,req⟩ →
        (s.waiting ++ (r :: s.replies).map (·.resp)).Subperm (s.opens (.request req) ++ s.chans) := by
      intro r hr
      rw [List.map_cons,hr]
      exact List.perm_middle.subperm
    cases req with
    | propose cmd =>
      simp only [handle,handleRequest]
      split
      · simp only [chans,waiting,opens,AList.entries_insert,List.map_cons,List.cons_append,List.nil_append,List.append_assoc]
        refine (List.Sublist.cons_cons _ ?_).subperm
        exact ((List.kerase_sublist _ _).map _).append_right _
      · exact hrefused _ rfl
    | read key op =>
      simp only [handle,handleRequest]
      split
      · simp only [chans,waiting,opens,AList.entries_insert,List.map_cons,List.cons_append,List.nil_append,List.append_assoc]
        refine List.perm_middle.subperm.trans (List.Sublist.cons_cons _ ?_).subperm
        exact (((List.kerase_sublist _ _).map _).append_right _).append_left _
      · exact hrefused _ rfl

/-- The server with the batch's snapshot. -/
def installed (s : Server) (rd : Ready) : Option Server := rd.snapshot.elim (some s) s.applySnapshot

/-- While the batch is applied, `Apply` returns `res` for a committed command of the operation. -/
def Applies (s : Server) (rd : Ready) (op : ClientKey) (res : Result) : Prop :=
  ∃ s₁ ys e zs cmd m', s.installed rd = some s₁ ∧ rd.committedEntries = ys ++ e :: zs ∧
    (ys.foldl applyEntry s₁).applied < e.index ∧ command? e = some cmd ∧ (cmd.clientID,cmd.seq) = op ∧
    (ys.foldl applyEntry s₁).sm.apply cmd = some (res,m')

/-- While the batch is applied, `key` has the value `res` in a state with at least `idx` applied. -/
def Shows (s : Server) (rd : Ready) (key : Bytes) (idx : Nat) (res : Result) : Prop :=
  ∃ s₁ ys zs, s.installed rd = some s₁ ∧ rd.committedEntries = ys ++ zs ∧ idx ≤ (ys.foldl applyEntry s₁).applied ∧
    res = (ys.foldl applyEntry s₁).sm.read key

/-- A result given to a waiter of `s`, by applying its command or for a read that was released. -/
def Earned (s : Server) (rd : Ready) (r : Reply) (res : Result) : Prop :=
  (∃ op, s.writeWaiters.lookup op = some r.resp ∧ s.Applies rd op res) ∨
    ∃ rs w, (rs ∈ s.pendingReads ∨ rs ∈ rd.readStates) ∧ s.readWaiters.lookup rs.requestCtx = some w ∧
      w.resp = r.resp ∧ s.Shows rd w.key rs.index res

/-- What `s` can have become while it settles the batch. -/
structure Settles (s : Server) (rd : Ready) (t : Server) : Prop where
  writes : ∀ op resp, t.writeWaiters.lookup op = some resp → s.writeWaiters.lookup op = some resp
  reads : ∀ ctx w, t.readWaiters.lookup ctx = some w → s.readWaiters.lookup ctx = some w
  pending : ∀ rs ∈ t.pendingReads, rs ∈ s.pendingReads ∨ rs ∈ rd.readStates
  replies : ∀ r ∈ t.replies, r ∈ s.replies ∨ ∃ res, r.answer = .result res ∧ s.Earned rd r res
  chans : t.chans.Perm s.chans
  prevLeader : t.prevLeader = s.prevLeader
  requests : t.requests = s.requests

namespace Settles
variable {t : Server}

private theorem serveRead (h : s.Settles rd t) {rs : ReadState} (hrs : rs ∈ s.pendingReads ∨ rs ∈ rd.readStates)
    (hshow : ∀ key, s.Shows rd key rs.index (t.sm.read key)) : s.Settles rd (t.serveRead rs) := by
  have hchans := (t.chans_serveRead rs).trans h.chans
  unfold Server.serveRead at hchans ⊢
  split at hchans
  · exact h
  rename_i w hw
  refine ⟨h.writes,fun ctx w' hl => ?_,h.pending,fun r hr => ?_,hchans,h.prevLeader,h.requests⟩
  · change (t.readWaiters.erase rs.requestCtx).lookup ctx = some w' at hl
    by_cases hctx : ctx = rs.requestCtx
    · rw [hctx,AList.lookup_erase] at hl
      cases hl
    · rw [AList.lookup_erase_ne hctx] at hl
      exact h.reads ctx w' hl
  rcases List.mem_cons.mp hr with rfl | hr
  · exact .inr ⟨_,rfl,.inr ⟨rs,w,hrs,h.reads _ w hw,rfl,hshow w.key⟩⟩
  · exact h.replies r hr

private theorem servePendingReads (h : s.Settles rd t)
    (hshow : ∀ key, ∀ idx ≤ t.applied, s.Shows rd key idx (t.sm.read key)) :
    s.Settles rd t.servePendingReads := by
  have hall : ∀ (l : List ReadState) (u : Server), s.Settles rd u → u.sm = t.sm →
      (∀ rs ∈ l, rs.index ≤ t.applied ∧ (rs ∈ s.pendingReads ∨ rs ∈ rd.readStates)) →
      s.Settles rd (l.foldl Server.serveRead u) := by
    intro l
    induction l with
    | nil => exact fun _ hu _ _ => hu
    | cons rs l ih =>
      intro u hu hsm hl
      have hrs := hl rs List.mem_cons_self
      exact ih _ (hu.serveRead hrs.2 fun key => hsm ▸ hshow key rs.index hrs.1) ((u.serveRead_alike rs).sm.trans hsm)
        fun rs' hrs' => hl rs' (List.mem_cons_of_mem _ hrs')
  have hserved := hall (t.pendingReads.filter fun rs => t.applied ≥ rs.index) t h rfl fun rs hrs => by
    obtain ⟨hmem,hle⟩ := List.mem_filter.mp hrs
    exact ⟨of_decide_eq_true hle,h.pending rs hmem⟩
  exact ⟨hserved.writes,hserved.reads,fun rs hrs => h.pending rs (List.mem_filter.mp hrs).1,hserved.replies,hserved.chans,
    hserved.prevLeader,hserved.requests⟩

private theorem releaseRead (h : s.Settles rd t) {rs : ReadState} (hrs : rs ∈ rd.readStates)
    (hshow : ∀ key, ∀ idx ≤ t.applied, s.Shows rd key idx (t.sm.read key)) : s.Settles rd (t.releaseRead rs) := by
  unfold Server.releaseRead
  split
  · rename_i hle
    exact h.serveRead (.inr hrs) fun key => hshow key rs.index hle
  refine ⟨h.writes,h.reads,fun rs' hrs' => ?_,h.replies,h.chans,h.prevLeader,h.requests⟩
  rcases List.mem_append.mp hrs' with hrs' | hrs'
  · exact h.pending rs' hrs'
  · exact .inr (List.mem_singleton.mp hrs' ▸ hrs)

private theorem completeWrite (h : s.Settles rd t) {op : ClientKey} {res : Result} (happ : s.Applies rd op res) :
    s.Settles rd (t.completeWrite op res) := by
  have hchans := (t.chans_completeWrite op res).trans h.chans
  unfold Server.completeWrite at hchans ⊢
  split at hchans
  · exact h
  rename_i resp hresp
  refine ⟨fun op' resp' hl => ?_,h.reads,h.pending,fun r hr => ?_,hchans,h.prevLeader,h.requests⟩
  · change (t.writeWaiters.erase op).lookup op' = some resp' at hl
    by_cases hop : op' = op
    · rw [hop,AList.lookup_erase] at hl
      cases hl
    · rw [AList.lookup_erase_ne hop] at hl
      exact h.writes op' resp' hl
  rcases List.mem_cons.mp hr with rfl | hr
  · exact .inr ⟨_,rfl,.inl ⟨op,h.writes op resp hresp,happ⟩⟩
  · exact h.replies r hr

theorem applyEntry {s₁ : Server} (hin : s.installed rd = some s₁) {ys zs : List Entry} {e : Entry}
    (hsplit : rd.committedEntries = ys ++ e :: zs) (h : s.Settles rd (ys.foldl Server.applyEntry s₁)) :
    s.Settles rd ((ys ++ [e]).foldl Server.applyEntry s₁) := by
  have hal := (ys.foldl Server.applyEntry s₁).applyEntry_alike e
  -- The machine and the index that reads are served with are those after the entry.
  have hshow : ∀ key, ∀ idx ≤ ((ys ++ [e]).foldl Server.applyEntry s₁).applied,
      s.Shows rd key idx (((ys ++ [e]).foldl Server.applyEntry s₁).sm.read key) := fun key idx hidx =>
    ⟨s₁,ys ++ [e],zs,hin,by rw [hsplit]; simp,hidx,rfl⟩
  rw [List.foldl_append] at hshow ⊢
  simp only [List.foldl_cons,List.foldl_nil] at hshow ⊢
  generalize ht : ys.foldl Server.applyEntry s₁ = t at h hal hshow ⊢
  by_cases hle : e.index ≤ t.applied
  · unfold Server.applyEntry
    rw [if_pos hle]
    exact h
  rw [if_neg hle] at hal
  have hstep : ∀ m, s.Settles rd { t with applied := e.index, sm := m } := fun m =>
    ⟨h.writes,h.reads,h.pending,h.replies,h.chans,h.prevLeader,h.requests⟩
  rw [hal.applied,hal.sm] at hshow
  rw [applyEntry_eq] at hshow
  unfold Server.applyEntry
  rw [if_neg hle]
  split
  · rename_i hn
    simp only [command?,if_pos hn] at hshow
    cases hdec : decodeCommand e.data with
    | error err => exact hstep t.sm
    | ok cmd =>
      simp only [hdec,Except.toOption] at hshow ⊢
      cases happ : t.sm.apply cmd with
      | none => exact hstep t.sm
      | some r =>
        obtain ⟨res,m'⟩ := r
        rw [happ] at hshow
        have hcmd : command? e = some cmd := by rw [command?,if_pos hn,hdec]; rfl
        have happlies : s.Applies rd (cmd.clientID,cmd.seq) res :=
          ⟨s₁,ys,e,zs,cmd,m',hin,hsplit,by rw [ht]; omega,hcmd,rfl,by rw [ht]; exact happ⟩
        have hwrite := (hstep m').completeWrite happlies
        have hsame := completeWrite_alike { t with applied := e.index, sm := m' } (cmd.clientID,cmd.seq) res
        refine hwrite.servePendingReads fun key idx hidx => ?_
        rw [hsame.applied] at hidx
        rw [hsame.sm]
        exact hshow key idx hidx
  rename_i hn
  simp only [command?,if_neg hn] at hshow
  exact (hstep t.sm).servePendingReads hshow

private theorem applyEntries {s₁ : Server} (hin : s.installed rd = some s₁) (h : s.Settles rd s₁) {ys zs : List Entry}
    (hsplit : rd.committedEntries = ys ++ zs) : s.Settles rd (ys.foldl Server.applyEntry s₁) := by
  induction ys using List.reverseRecOn generalizing zs with
  | nil => exact h
  | append_singleton ys e ih =>
    rw [List.append_assoc] at hsplit
    exact applyEntry hin hsplit (ih hsplit)

theorem installed {s₁ : Server} (h : s.installed rd = some s₁) : s.Settles rd s₁ ∧ s₁.node = s.node := by
  have hkeep : ∀ m k, s.Settles rd { s with sm := m, applied := k } := fun m k =>
    ⟨fun _ _ => id,fun _ _ => id,fun _ => .inl,fun _ => .inl,.refl _,rfl,rfl⟩
  unfold Server.installed at h
  cases hsnap : rd.snapshot with
  | none =>
    rw [hsnap] at h
    obtain rfl := Option.some.inj h
    exact ⟨hkeep s.sm s.applied,rfl⟩
  | some snap =>
    rw [hsnap] at h
    simp only [Option.elim_some,applySnapshot] at h
    split at h
    · split at h
      · cases h
      · obtain rfl := Option.some.inj h
        exact ⟨hkeep _ _,rfl⟩
    · obtain rfl := Option.some.inj h
      exact ⟨hkeep _ _,rfl⟩

theorem releaseReads {s₁ : Server} (hin : s.installed rd = some s₁) (l : List ReadState) :
    ∀ t : Server, (∀ rs ∈ l, rs ∈ rd.readStates) → s.Settles rd t →
      t.sm = (rd.committedEntries.foldl Server.applyEntry s₁).sm →
      t.applied = (rd.committedEntries.foldl Server.applyEntry s₁).applied →
      s.Settles rd (l.foldl Server.releaseRead t) := by
  induction l with
  | nil => exact fun _ _ ht _ _ => ht
  | cons rs l ih =>
    intro t hl ht hsm happ
    have hal := t.releaseRead_alike rs
    refine ih _ (fun rs' hrs' => hl rs' (List.mem_cons_of_mem _ hrs')) ?_ (hal.sm.trans hsm) (hal.applied.trans happ)
    refine ht.releaseRead (hl rs List.mem_cons_self) fun key idx hidx => ?_
    exact ⟨s₁,rd.committedEntries,[],hin,(List.append_nil _).symm,happ ▸ hidx,by rw [hsm]⟩

end Settles

theorem round_settles (h : (s.round maxSegmentSize).2 = .ok s') :
    ∃ rd, s.node.ready = .ok rd ∧ s.Settles rd s' ∧ s'.node.state = s.node.state ∧ s'.node.term = s.node.term := by
  unfold round at h
  split at h
  · cases h
  rename_i rd hrd
  split at h
  · cases h
  rename_i stor _
  refine ⟨rd,hrd,?_⟩
  cases hfin : s.finish stor rd with
  | none =>
    simp only [hfin] at h
    cases h
  | some s₂ =>
    simp only [hfin] at h
    obtain rfl : s₂ = s' := Except.ok.inj h
    unfold finish at hfin
    obtain ⟨s₁,hin,hfin⟩ := Option.bind_eq_some_iff.mp hfin
    simp only at hfin
    split at hfin
    · cases hfin
    obtain rfl := Option.some.inj hfin
    obtain ⟨hstart,hkept⟩ := Settles.installed hin
    have happlied := hstart.applyEntries hin (List.append_nil _).symm
    have hall := Settles.releaseReads hin rd.readStates _ (fun _ => id) happlied rfl rfl
    have hnode : (rd.readStates.foldl releaseRead (rd.committedEntries.foldl applyEntry s₁)).node = s.node := by
      rw [(Alike.foldl releaseRead_alike rd.readStates _).node,(foldl_applyEntry_node _ s₁).1,hkept]
    refine ⟨⟨hall.writes,hall.reads,hall.pending,hall.replies,hall.chans,hall.prevLeader,hall.requests⟩,?_⟩
    simp only [hnode]
    exact ⟨rfl,rfl⟩

private theorem stepPropose_ok {r : Raft} {m : Message} (h : (r.stepPropose m).2 = true) : r.state = .leader := by
  unfold Raft.stepPropose at h
  split at h
  · cases h
  · rename_i hl
    exact not_not.mp hl

private theorem handle_writer {i : Input} {op : ClientKey} {resp : Chan}
    (h : (s.handle i).writeWaiters.lookup op = some resp) : s.writeWaiters.lookup op = some resp ∨
      (i = .request resp.req ∧ resp.no = s.requests ∧ s.node.state = .leader) := by
  cases i with
  | tick | recv m => exact .inl h
  | request req =>
    cases req with
    | propose cmd =>
      simp only [handle,handleRequest] at h
      split at h
      · rename_i hok
        by_cases hop : op = (cmd.clientID,cmd.seq)
        · subst hop
          simp only [AList.lookup_insert,Option.some.injEq] at h
          subst h
          exact .inr ⟨rfl,rfl,stepPropose_ok hok⟩
        · rw [AList.lookup_insert_ne hop] at h
          exact .inl h
      · exact .inl h
    | read key op' =>
      simp only [handle,handleRequest] at h
      split at h <;> exact .inl h

private theorem checked_writer {i : Input} (hflag : s.prevLeader = decide (s.node.state = .leader))
    (hw : ∀ op resp, s.writeWaiters.lookup op = some resp → s.node.state = .leader) {op : ClientKey} {resp : Chan}
    (h : (s.handle i).checkLeadership.writeWaiters.lookup op = some resp) :
    (s.handle i).node.state = .leader ∧ s.node.state = .leader ∧ (s.writeWaiters.lookup op = some resp ∨
      (i = .request resp.req ∧ resp.no = s.requests)) := by
  rcases (s.handle i).checkLeadership_cases with ⟨_,hwait,_,hlead⟩ | ⟨_,hnone,_⟩
  · rw [hwait] at h
    have hold := handle_writer h
    have hl : s.node.state = .leader := hold.elim (hw op resp) fun h => h.2.2
    refine ⟨hlead.resolve_right fun hp => ?_,hl,hold.imp_right fun h => ⟨h.1,h.2.1⟩⟩
    rw [(s.handle_rest i).2.1,hflag] at hp
    exact of_decide_eq_false hp hl
  · rw [hnone] at h
    cases h

private theorem handle_leader_term {i : Input} (hl : s.node.state = .leader) (hl' : (s.handle i).node.state = .leader) :
    (s.handle i).node.term = s.node.term := by
  rw [(s.handle_alike i).node] at hl' ⊢
  cases hc : s.cause i with
  | tick =>
    rw [hc] at hl'
    exact s.node.tick_role.leader_term hl hl'
  | step m =>
    rw [hc] at hl'
    exact Raft.step_leader_term hl hl'

/-- The request of the channel came in when the node was `sa`, and the node has led one term since. -/
def Since (maxSegmentSize : Nat) (s₀ : Server) (as : List Act) (resp : Chan) (sa : Server) : Prop :=
  ∃ before after, as = before ++ .input (.request resp.req) :: after ∧ s₀.acts maxSegmentSize before = some sa ∧
    sa.requests = resp.no ∧ ∃ t, ∀ b, b <+: after → ∀ s,
      s₀.acts maxSegmentSize (before ++ .input (.request resp.req) :: b) = some s → s.node.state = .leader ∧ s.node.term = t

/-- The read state was in a batch. -/
def Released (maxSegmentSize : Nat) (s₀ : Server) (as : List Act) (rs : ReadState) : Prop :=
  ∃ before after s rd, as = before ++ .round :: after ∧ s₀.acts maxSegmentSize before = some s ∧
    s.node.ready = .ok rd ∧ rs ∈ rd.readStates

/-- In a batch, with the node leading since the request: `res` is what `Apply` returned for a committed command of a
write's operation, or the value of a read's key in a state that covers the index it was released with. -/
def Answers (maxSegmentSize : Nat) (s₀ : Server) (as : List Act) (resp : Chan) (res : Result) : Prop :=
  ∃ before after s rd sa, as = before ++ .round :: after ∧ s₀.acts maxSegmentSize before = some s ∧
    s.node.ready = .ok rd ∧ Since maxSegmentSize s₀ before resp sa ∧
    match resp.req with
    | .propose cmd => s.Applies rd (cmd.clientID,cmd.seq) res
    | .read key _ => ∃ rs, Released maxSegmentSize s₀ (before ++ [.round]) rs ∧
        rs.requestCtx = token (sa.readToken + 1) ∧ s.Shows rd key rs.index res

section concat
variable {as : List Act} {a : Act} {resp : Chan} {sa : Server}

theorem Since.leads (h : Since maxSegmentSize s₀ as resp sa) (hs : s₀.acts maxSegmentSize as = some s) :
    s.node.state = .leader := by
  obtain ⟨before,after,rfl,_,_,t,ht⟩ := h
  exact (ht after List.prefix_rfl s hs).1

theorem Since.concat (h : Since maxSegmentSize s₀ as resp sa) (hs : s₀.acts maxSegmentSize as = some s)
    (hact : s.act maxSegmentSize a = some s') (hl : s'.node.state = .leader) (hterm : s'.node.term = s.node.term) :
    Since maxSegmentSize s₀ (as ++ [a]) resp sa := by
  obtain ⟨before,after,rfl,hb,hno,t,ht⟩ := h
  have hnow := (ht after List.prefix_rfl s hs).2
  refine ⟨before,after ++ [a],by simp,hb,hno,t,fun b hpre s₁ hs₁ => ?_⟩
  rcases List.prefix_concat_iff.mp hpre with rfl | hpre
  · have hlast : s₀.acts maxSegmentSize (before ++ .input (.request resp.req) :: (after ++ [a])) = some s' := by
      rw [show before ++ .input (.request resp.req) :: (after ++ [a]) =
        (before ++ .input (.request resp.req) :: after) ++ [a] by simp,acts_concat,hs]
      exact hact
    obtain rfl := Option.some.inj (hlast.symm.trans hs₁)
    exact ⟨hl,hterm.trans hnow⟩
  · exact ht b hpre s₁ hs₁

theorem Since.now (hs : s₀.acts maxSegmentSize as = some s) (hno : resp.no = s.requests)
    (hact : s.act maxSegmentSize (.input (.request resp.req)) = some s') (hl : s'.node.state = .leader) :
    Since maxSegmentSize s₀ (as ++ [.input (.request resp.req)]) resp s := by
  refine ⟨as,[],rfl,hs,hno.symm,s'.node.term,fun b hpre s₁ hs₁ => ?_⟩
  obtain rfl := List.prefix_nil.mp hpre
  rw [acts_concat,hs] at hs₁
  obtain rfl := Option.some.inj (hact.symm.trans hs₁)
  exact ⟨hl,rfl⟩

theorem Released.concat {rs : ReadState} (h : Released maxSegmentSize s₀ as rs) (a : Act) :
    Released maxSegmentSize s₀ (as ++ [a]) rs := by
  obtain ⟨before,after,s,rd,rfl,h⟩ := h
  exact ⟨before,after ++ [a],s,rd,by simp,h⟩

theorem Answers.concat {res : Result} (h : Answers maxSegmentSize s₀ as resp res) (a : Act) :
    Answers maxSegmentSize s₀ (as ++ [a]) resp res := by
  obtain ⟨before,after,s,rd,sa,rfl,h⟩ := h
  exact ⟨before,after ++ [a],s,rd,sa,by simp,h⟩

end concat

/-- How the node stands with its requests after the steps `as`. -/
structure Attends (maxSegmentSize : Nat) (s₀ : Server) (as : List Act) (s : Server) : Prop where
  run : s₀.acts maxSegmentSize as = some s
  count : (Drive.requests as).length = s.requests
  prevLeader : s.prevLeader = decide (s.node.state = .leader)
  once : (s.chans.map (·.no)).Nodup
  named : ∀ resp ∈ s.chans, (Drive.requests as)[resp.no]? = some resp.req
  filed : s.Filed
  writes : ∀ op resp, s.writeWaiters.lookup op = some resp → ∃ sa, Since maxSegmentSize s₀ as resp sa
  reads : ∀ ctx w, s.readWaiters.lookup ctx = some w →
    ∃ sa, Since maxSegmentSize s₀ as w.resp sa ∧ ctx = token (sa.readToken + 1)
  pending : ∀ rs ∈ s.pendingReads, Released maxSegmentSize s₀ as rs
  replies : ∀ r ∈ s.replies, ∀ res, r.answer = .result res → Answers maxSegmentSize s₀ as r.resp res

namespace Attends
variable {as : List Act}

private theorem idle (h : s₀.Idle) : Attends maxSegmentSize s₀ [] s₀ := by
  have hchans : s₀.chans = [] := by simp [Server.chans,waiting,h.replies,h.readWaiters,h.writeWaiters]
  refine ⟨rfl,h.requests.symm,by rw [h.prevLeader,h.follower]; rfl,by simp [hchans],by simp [hchans],h.filed,
    fun op resp hl => ?_,fun ctx w hl => ?_,by simp [h.pendingReads],by simp [h.replies]⟩
  · rw [h.writeWaiters] at hl
    cases hl
  · rw [h.readWaiters] at hl
    cases hl

private theorem requests_concat (as : List Act) (i : Input) :
    Drive.requests (as ++ [.input i]) = Drive.requests as ++ (s.opens i).map (·.req) := by
  cases i <;> simp [Drive.requests,Act.request?,opens]

theorem opens (h : Attends maxSegmentSize s₀ as s) (i : Input) : ((s.opens i ++ s.chans).map (·.no)).Nodup ∧
    ∀ resp ∈ s.opens i ++ s.chans, (Drive.requests (as ++ [.input i]))[resp.no]? = some resp.req := by
  have hlt : ∀ resp ∈ s.chans, resp.no < s.requests := fun resp hr =>
    h.count ▸ (List.getElem?_eq_some_iff.mp (h.named resp hr)).1
  refine ⟨?_,fun resp hr => ?_⟩
  · rw [List.map_append]
    cases i with
    | tick | recv m => exact h.once
    | request req =>
      refine List.nodup_cons.mpr ⟨fun hmem => ?_,h.once⟩
      obtain ⟨resp,hr,heq⟩ := List.mem_map.mp hmem
      exact Nat.lt_irrefl _ (heq ▸ hlt resp hr)
  rw [requests_concat (s := s) as i]
  rcases List.mem_append.mp hr with hr | hr
  · cases i with
    | tick | recv m => cases hr
    | request req =>
      rw [List.mem_singleton.mp hr]
      change (Drive.requests as ++ [req])[s.requests]? = some req
      rw [← h.count]
      exact List.getElem?_concat_length
  · rw [List.getElem?_append_left (by rw [h.count]; exact hlt resp hr)]
    exact h.named resp hr

private theorem input (h : Attends maxSegmentSize s₀ as s) {i : Input} (hf : (s.handle i).node.failed = false) :
    Attends maxSegmentSize s₀ (as ++ [.input i]) (s.handle i).checkLeadership := by
  have hact : s.act maxSegmentSize (.input i) = some (s.handle i).checkLeadership := by
    rw [act,hf]
    rfl
  have hnode := (s.handle i).checkLeadership_alike.node
  have hsub : (s.handle i).checkLeadership.chans.Subperm (s.opens i ++ s.chans) :=
    (s.handle i).chans_checkLeadership.subperm.trans (s.chans_handle i)
  obtain ⟨_,hflag,hreps⟩ := (s.handle i).checkLeadership_rest
  obtain ⟨honce,hnamed⟩ := h.opens i
  refine ⟨by rw [acts_concat,h.run]; exact hact,?_,by rw [hnode]; exact hflag,?_,fun resp hr => ?_,
    (h.filed.handle i).checkLeadership,fun op resp hl => ?_,fun ctx w hl => ?_,fun rs hrs => ?_,fun r hr res hres => ?_⟩
  · rw [requests_concat (s := s) as i,List.length_append,List.length_map,h.count,← s.handle_requests i]
    unfold checkLeadership
    simp only
    split
    · rw [foldl_notLeader]
    · rfl
  · obtain ⟨l,hperm,hle⟩ := hsub
    exact (hperm.map _).nodup_iff.mp (List.Nodup.sublist (hle.map _) honce)
  · exact hnamed resp (hsub.subset hr)
  · obtain ⟨hl',hlead,hold | ⟨rfl,hno⟩⟩ := checked_writer h.prevLeader
      (fun op resp hl => (h.writes op resp hl).elim fun _ hsince => hsince.leads h.run) hl
    · obtain ⟨sa,hsince⟩ := h.writes op resp hold
      exact ⟨sa,hsince.concat h.run hact (hnode ▸ hl') (by rw [hnode]; exact handle_leader_term hlead hl')⟩
    · exact ⟨s,.now h.run hno hact (hnode ▸ hl')⟩
  · obtain ⟨hl',hlead,hold | ⟨hi,hctx,hresp⟩⟩ := checked_waiter h.prevLeader
      (fun ctx w hl => (h.reads ctx w hl).elim fun _ hr => hr.1.leads h.run) hl
    · obtain ⟨sa,hsince,htok⟩ := h.reads ctx w hold
      exact ⟨sa,hsince.concat h.run hact (hnode ▸ hl') (by rw [hnode]; exact handle_leader_term hlead hl'),htok⟩
    · obtain rfl : i = .request w.resp.req := by rw [hi,hresp]
      exact ⟨s,.now h.run (by rw [hresp]) hact (hnode ▸ hl'),hctx⟩
  · refine (h.pending rs ?_).concat _
    rcases (s.handle i).checkLeadership_cases with ⟨_,_,hpend,_⟩ | ⟨_,_,hnone⟩
    · rw [hpend,(s.handle_rest i).1] at hrs
      exact hrs
    · rw [hnone] at hrs
      cases hrs
  -- Only refusals are new.
  have hold : r ∈ s.replies := by
    have hno : ¬ ∃ l, r.answer = .notLeader l := by
      rintro ⟨l,hl⟩
      cases hl.symm.trans hres
    exact ((s.handle_rest i).2.2.2 r ((hreps r hr).resolve_right hno)).resolve_right hno
  exact (h.replies r hold res hres).concat _

private theorem round (h : Attends maxSegmentSize s₀ as s) (hact : s.act maxSegmentSize .round = some s') :
    Attends maxSegmentSize s₀ (as ++ [.round]) s' := by
  obtain ⟨rd,hrd,hset,hstate,hterm⟩ : ∃ rd, s.node.ready = .ok rd ∧ s.Settles rd s' ∧
      s'.node.state = s.node.state ∧ s'.node.term = s.node.term := by
    have hround := hact
    rw [act] at hround
    split at hround
    · cases hok : (s.round maxSegmentSize).2 with
      | error d =>
        rw [hok] at hround
        cases hround
      | ok s₁ =>
        rw [hok] at hround
        obtain rfl := Option.some.inj hround
        exact round_settles hok
    · cases hround
  have hreq : Drive.requests (as ++ [.round]) = Drive.requests as := by simp [Drive.requests,Act.request?]
  have hsince : ∀ {resp sa}, Since maxSegmentSize s₀ as resp sa → Since maxSegmentSize s₀ (as ++ [.round]) resp sa :=
    fun hs => hs.concat h.run hact (hstate.trans (hs.leads h.run)) hterm
  have hreleased : ∀ rs, rs ∈ s.pendingReads ∨ rs ∈ rd.readStates → Released maxSegmentSize s₀ (as ++ [.round]) rs :=
    fun rs hrs => hrs.elim (fun hrs => (h.pending rs hrs).concat _) fun hrs => ⟨as,[],s,rd,rfl,h.run,hrd,hrs⟩
  refine ⟨by rw [acts_concat,h.run]; exact hact,by rw [hreq,hset.requests]; exact h.count,
    by rw [hset.prevLeader,hstate]; exact h.prevLeader,(hset.chans.map _).nodup_iff.mpr h.once,
    fun resp hr => by rw [hreq]; exact h.named resp (hset.chans.subset hr),
    ⟨fun ctx w hl => h.filed.reads ctx w (hset.reads ctx w hl),fun op resp hl => h.filed.writes op resp (hset.writes op resp hl)⟩,
    fun op resp hl => ?_,fun ctx w hl => ?_,fun rs hrs => hreleased rs (hset.pending rs hrs),fun r hr res hres => ?_⟩
  · obtain ⟨sa,hs⟩ := h.writes op resp (hset.writes op resp hl)
    exact ⟨sa,hsince hs⟩
  · obtain ⟨sa,hs,htok⟩ := h.reads ctx w (hset.reads ctx w hl)
    exact ⟨sa,hsince hs,htok⟩
  rcases hset.replies r hr with hold | ⟨res',hres',hearned⟩
  · exact (h.replies r hold res hres).concat _
  obtain rfl : res' = res := Answer.result.inj (hres'.symm.trans hres)
  rcases hearned with ⟨op,hl,happ⟩ | ⟨rs,w,hrs,hl,hresp,hshow⟩
  · obtain ⟨asked,hask,hop⟩ := h.filed.writes op r.resp hl
    obtain ⟨sa,hs⟩ := h.writes op r.resp hl
    refine ⟨as,[],s,rd,sa,rfl,h.run,hrd,hs,?_⟩
    rw [hask]
    subst hop
    exact happ
  obtain ⟨sa,hs,htok⟩ := h.reads _ w hl
  rw [← hresp]
  refine ⟨as,[],s,rd,sa,rfl,h.run,hrd,hs,?_⟩
  rw [h.filed.reads _ w hl]
  exact ⟨rs,hreleased rs hrs,htok,hshow⟩

private theorem of_acts (h₀ : s₀.Idle) (hs : s₀.acts maxSegmentSize as = some s) : Attends maxSegmentSize s₀ as s := by
  induction as using List.reverseRecOn generalizing s with
  | nil =>
    obtain rfl := Option.some.inj hs
    exact idle h₀
  | append_singleton as a ih =>
    rw [acts_concat] at hs
    obtain ⟨s₁,hs₁,hact⟩ := Option.bind_eq_some_iff.mp hs
    have h₁ := ih hs₁
    cases a with
    | input i =>
      rw [act] at hact
      split at hact
      · cases hact
      rename_i hf
      obtain rfl := Option.some.inj hact
      exact h₁.input (Bool.eq_false_iff.mpr hf)
    | round => exact h₁.round hact

end Attends
end Server

/-- One answer per request, and the right one. -/
theorem answered_once {maxSegmentSize : Nat} {cfg : Config} {dir : Disk.Dir} {rand : Nat → Nat} {s₀ s : Server}
    (hnew : Server.new maxSegmentSize cfg dir rand = some s₀) {as : List Act} (hs : s₀.acts maxSegmentSize as = some s) :
    (s.replies.map fun r => r.resp.no).Nodup ∧
      (∀ r ∈ s.replies, (requests as)[r.resp.no]? = some r.resp.req) ∧
      ∀ r ∈ s.replies, ∀ res, r.answer = .result res → Server.Answers maxSegmentSize s₀ as r.resp res := by
  have h := Server.Attends.of_acts (Server.new_idle hnew) hs
  refine ⟨?_,fun r hr => h.named r.resp (List.mem_append_right _ (List.mem_map_of_mem hr)),h.replies⟩
  have honce := h.once
  rw [Server.chans,List.map_append,List.map_map] at honce
  exact (List.nodup_append.mp honce).2.1

/-- A cluster of one. -/
def solo : Config := { id := 1, peers := [1], electionTicks := 2, heartbeatTicks := 1 }

/-- Two puts under one pair, of which the second takes over the answer, and a read. -/
def repeated : List Act :=
  let put (b : UInt8) : Act :=
    .input (.request (.propose { clientID := 1, seq := 1, op := .put, key := [107], value := some [b] }))
  [.input .tick,.input .tick,.input .tick,.round,put 7,put 8,.round,.input (.request (.read [107] (2,1))),.round]

theorem answered_once_repeated : ∃ s₀ s, Server.new 4096 solo {} (fun _ => 0) = some s₀ ∧ s₀.acts 4096 repeated = some s ∧
    s.replies.map (fun r => r.resp.no) = [2,1] ∧
    ∀ r ∈ s.replies, ∀ res, r.answer = .result res → Server.Answers 4096 s₀ repeated r.resp res := by
  have h : (((Server.new 4096 solo {} (fun _ => 0)).bind fun s₀ => s₀.acts 4096 repeated).any fun s =>
      decide (s.replies.map (fun r => r.resp.no) = [2,1])) = true := by
    decide +kernel
  obtain ⟨s,hs,h⟩ := (Option.any_eq_true _ _).mp h
  obtain ⟨s₀,hnew,hs⟩ := Option.bind_eq_some_iff.mp hs
  exact ⟨s₀,s,hnew,hs,of_decide_eq_true h,(answered_once hnew hs).2.2⟩

end Drive
end Parallax
