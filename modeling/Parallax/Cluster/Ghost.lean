import Mathlib.Algebra.Order.BigOperators.Group.Finset
import Parallax.Cluster.Model
import Parallax.Consensus.Frame
import Parallax.Raft.LogSpec
import Parallax.Raft.ReadSpec

/-! What a node's state and the messages in flight record of the history of the cluster. -/
namespace Parallax.Cluster
open Consensus Consensus.History

abbrev Hist := History Nat Entry

/-- Majorities of the members. -/
def Setup.quorums (S : Setup) : Quorums Nat where
  IsQuorum Q := Q ⊆ S.peers.toFinset ∧ S.peers.length / 2 < Q.card
  Solo := S.peers.length = 1
  inter {Q R} hQ hR := by
    have hcard : S.peers.toFinset.card = S.peers.length := List.toFinset_card_of_nodup S.nodup
    have hlt : S.peers.toFinset.card < Q.card + R.card := by omega
    obtain ⟨v,hv⟩ := Finset.inter_nonempty_of_card_lt_card_add_card hQ.1 hR.1 hlt
    exact ⟨v,(Finset.mem_inter.mp hv).1,(Finset.mem_inter.mp hv).2⟩

/-- The application state after a log. -/
def applyAll (A : App) (xs : List Entry) : A.State := xs.foldl A.apply A.init

/-- `snap` stands for a prefix known to be committed by term `t`. -/
def SnapOK (S : Setup) (H : Hist) (t : Nat) (snap : Snapshot) : Prop :=
  ∃ p, p.length = snap.metadata.index ∧ H.CommittedBy t p ∧ snap.metadata.term = termAt p p.length ∧
    (0 < snap.metadata.index → snap.data = S.app.snapshot (applyAll S.app p))

/-- What a message says about the history, by type. -/
def Content (S : Setup) (H : Hist) (m : Message) : Prop :=
  match m.type with
  | .unknown | .propose | .readIndex => False
  | .preVote | .preVoteResp | .heartbeatResp => True
  | .vote => ∃ l, H.cand m.sender m.term = some l ∧ m.logIndex = l.length ∧
      m.logTerm = lastTerm Entry.term l
  | .voteResp => m.reject = false → ∃ b, H.ballot m.sender m.term = some b ∧ b.cand = m.dest
  | .append => H.Elected m.term m.sender ∧
      (∃ p, p.length = m.logIndex ∧ m.logTerm = termAt p p.length ∧ p ++ m.entries <+: H.lead m.term) ∧
      ∃ c, c.length = m.commit ∧ H.CommittedBy m.term c
  | .appendResp => (m.reject = false → m.logIndex ≤ H.ack m.sender m.term) ∧
      (m.reject = true → m.rejectHint ≤ (H.lead m.term).length)
  | .heartbeat => H.Elected m.term m.sender ∧ m.commit ≤ H.ack m.dest m.term ∧
      ∃ c, c.length = m.commit ∧ H.CommittedBy m.term c
  | .installSnapshot => H.Elected m.term m.sender ∧
      ∃ snap, m.snapshot = some snap ∧ 0 < snap.metadata.index ∧ SnapOK S H m.term snap
  | .installSnapshotResp => m.logIndex ≤ H.ack m.sender m.term

structure MsgOK (S : Setup) (H : Hist) (m : Message) : Prop where
  sender : m.sender ∈ S.peers
  ne : m.dest ≠ m.sender
  term : 0 < m.term
  content : Content S H m

/-- What `term` and `vote` of node `n` record. -/
structure Durable (S : Setup) (H : Hist) (n term vote : Nat) : Prop where
  ballot : ∀ t b, H.ballot n t = some b → t < term ∨ (t = term ∧ b.cand = vote)
  vote : vote ≠ None → ∃ b, H.ballot n term = some b ∧ b.cand = vote
  ack : ∀ t, 0 < H.ack n t → t ≤ term
  cand : ∀ t l, H.cand n t = some l → t ≤ term ∧ ∃ b, H.ballot n t = some b ∧ b.cand = n
  /-- A lone node may have stored entries of a term it did not get to persist. -/
  solo : S.quorums.Solo → (∀ e ∈ H.log n, e.term ≤ term + 1) ∧ ∀ t, term < t → H.lead t <+: H.log n

/-- The log of node `n`, whose committed part is committed by `term`. -/
structure LogOK (S : Setup) (H : Hist) (n term : Nat) (l : RaftLog) : Prop where
  panicked : l.panicked = none
  repr : l.Repr (H.log n)
  base_le : l.base.index ≤ l.applied
  applied_le : l.applied ≤ l.committed
  commit_le : l.committed ≤ (H.log n).length
  committed : H.CommittedBy term ((H.log n).take l.committed)
  snap : SnapOK S H term l.storage.snapshot
  pending : ∀ snap, l.unstable.snapshot = some snap → SnapOK S H term snap ∧
    l.storage.applySnapshot snap = .ok { l.storage with snapshot := snap, entries := [] }

/-- Node `n` leads `term`: its log is the term's log, and progress is backed by acknowledgements. -/
structure Leads (H : Hist) (n term : Nat) (prs : AList (fun _ : Nat => Progress)) : Prop where
  elected : H.Elected term n
  log : H.log n = H.lead term
  ack : H.ack n term = (H.log n).length
  matched : ∀ v pr, prs.lookup v = some pr → pr.matched ≤ H.ack v term
  next : ∀ v pr, prs.lookup v = some pr → 1 ≤ pr.next ∧ pr.next ≤ (H.log n).length + 1

/-- Node `n` stands for election in `term` with its current log. -/
structure Stands (S : Setup) (H : Hist) (n term : Nat) (votes : AList (fun _ : Nat => Bool)) : Prop where
  cand : H.cand n term = some (H.log n)
  own : ∃ b, H.ballot n term = some b ∧ b.cand = n ∧ b.log = H.log n
  fresh : ¬ H.Elected term n
  pos : 0 < term
  solo : S.quorums.Solo → (∀ e ∈ H.log n, e.term ≤ term) ∧ H.lead term <+: H.log n
  votes : ∀ v, votes.lookup v = some true → v ∈ S.peers ∧ ∃ b, H.ballot v term = some b ∧ b.cand = n

/-- The core of node `n` against the history. -/
structure Ok (S : Setup) (H : Hist) (n : Nat) (r : Raft) : Prop where
  id : r.id = n
  peers : r.peers.Perm S.peers
  panicked : r.panicked = none
  log : LogOK S H n r.term r.raftLog
  durable : Durable S H n r.term r.vote
  leads : r.state = .leader → Leads H n r.term r.prs
  com : r.state = .leader → H.com r.term ≤ r.raftLog.committed
  stands : r.state = .candidate → Stands S H n r.term r.votes
  prs : ∀ v ∈ S.peers, (r.prs.lookup v).isSome
  reads : r.readOnly.WF
  lead : r.lead ≠ None → 0 < r.term
  msgs : ∀ m ∈ r.msgs, MsgOK S H m ∧ m.sender = n
  msgs_term : ∀ m ∈ r.msgs, m.type ≠ .preVote → m.type ≠ .preVoteResp → m.term ≤ r.term
  probes : ∀ m ∈ r.msgs, m.type = .preVote → m.term ≤ r.term + 1

theorem Ok.failed {S : Setup} {H : Hist} {n : Nat} {r : Raft} (h : Ok S H n r) : r.failed = false := by
  unfold Raft.failed
  rw [h.panicked,h.log.panicked]
  rfl

/-- The history itself: the protocol invariant, and entries in their places. -/
structure Good (S : Setup) (H : Hist) : Prop where
  inv : H.Inv S.quorums Entry.term
  indexed : ∀ t, Indexed (H.lead t)
  member : ∀ c t l, H.cand c t = some l → c ∈ S.peers

structure At (S : Setup) (H : Hist) (n : Nat) (r : Raft) : Prop where
  mem : n ∈ S.peers
  good : Good S H
  ok : Ok S H n r

/-- Node `n` holds what it acknowledged in term `t`. -/
def Holds (H : Hist) (n t : Nat) : Prop := (H.lead t).take (H.ack n t) <+: H.log n

/-- From `r` under `H` the core of `n` gets to `r'` with some history that continues `H`. What it
acknowledged in its term it goes on holding. -/
def Reaches (S : Setup) (H : Hist) (n : Nat) (r r' : Raft) : Prop :=
  ∃ H', Frame n H H' ∧ At S H' n r' ∧ r.term ≤ r'.term ∧ (Holds H n r.term → Holds H' n r'.term)

theorem Reaches.refl {S : Setup} {H : Hist} {n : Nat} {r : Raft} (h : At S H n r) : Reaches S H n r r :=
  ⟨H,Frame.refl n H,h,Nat.le_refl _,fun hh => hh⟩

theorem Reaches.after {S : Setup} {H H' : Hist} {n : Nat} {r r' r'' : Raft} (hf : Frame n H H')
    (ht : r.term ≤ r'.term) (hk : Holds H n r.term → Holds H' n r'.term) (h : Reaches S H' n r' r'') :
    Reaches S H n r r'' := by
  obtain ⟨H'',hf',ha',ht',hk'⟩ := h
  exact ⟨H'',hf.trans hf',ha',ht.trans ht',fun hh => hk' (hk hh)⟩

theorem Reaches.then {S : Setup} {H : Hist} {n : Nat} {r r' r'' : Raft} (h : Reaches S H n r r')
    (h' : ∀ H', Frame n H H' → At S H' n r' → Reaches S H' n r' r'') : Reaches S H n r r'' := by
  obtain ⟨H',hf,ha,ht,hk⟩ := h
  exact Reaches.after hf ht hk (h' H' hf ha)

/-- Steps that need no new history. -/
theorem Reaches.of_ok {S : Setup} {H : Hist} {n : Nat} {r r' : Raft} (h : At S H n r)
    (ho : Ok S H n r') (ht : r.term = r'.term) : Reaches S H n r r' :=
  ⟨H,Frame.refl n H,⟨h.mem,h.good,ho⟩,ht.le,fun hh => ht ▸ hh⟩

theorem lastTerm_eq_termAt (xs : List Entry) : lastTerm Entry.term xs = termAt xs xs.length := by
  rcases List.eq_nil_or_concat xs with rfl | ⟨p,e,rfl⟩
  · rfl
  · rw [List.concat_eq_append,lastTerm_append_singleton]
    simp [termAt]

theorem Setup.ne_zero (S : Setup) {n : Nat} (hn : n ∈ S.peers) : n ≠ 0 := by
  have hv := S.cfg_valid n hn
  rintro rfl
  rw [Config.validate,if_pos (S.cfg_id 0 hn)] at hv
  cases hv

theorem Setup.quorum_nonempty {S : Setup} {Q : Finset Nat} (h : S.quorums.IsQuorum Q) : Q.Nonempty := by
  rw [← Finset.card_pos]
  exact Nat.lt_of_le_of_lt (Nat.zero_le _) h.2

section ext
variable {S : Setup} {H H' : Hist}

theorem SnapOK.ext {t : Nat} {snap : Snapshot} (h : SnapOK S H t snap) (hx : Ext H H') :
    SnapOK S H' t snap := by
  obtain ⟨p,hl,hc,h⟩ := h
  exact ⟨p,hl,hc.ext hx,h⟩

theorem SnapOK.mono {t t' : Nat} {snap : Snapshot} (h : SnapOK S H t snap) (ht : t ≤ t') :
    SnapOK S H t' snap := by
  obtain ⟨p,hl,hc,h⟩ := h
  exact ⟨p,hl,hc.mono ht,h⟩

theorem LogOK.mono {n t t' : Nat} {l : RaftLog} (h : LogOK S H n t l) (ht : t ≤ t') : LogOK S H n t' l where
  __ := h
  committed := h.committed.mono ht
  snap := h.snap.mono ht
  pending snap hs := ⟨(h.pending snap hs).1.mono ht,(h.pending snap hs).2⟩

theorem LogOK.ext {n t : Nat} {l : RaftLog} (h : LogOK S H n t l) (hx : Ext H H')
    (hl : H'.log n = H.log n) : LogOK S H' n t l where
  __ := h
  repr := hl ▸ h.repr
  commit_le := hl ▸ h.commit_le
  committed := hl ▸ h.committed.ext hx
  snap := h.snap.ext hx
  pending snap hs := ⟨(h.pending snap hs).1.ext hx,(h.pending snap hs).2⟩

/-- The commit index may move to any committed prefix of the log. -/
theorem LogOK.commitTo {n t i : Nat} {l : RaftLog} (h : LogOK S H n t l) (hi : i ≤ (H.log n).length)
    (hc : H.CommittedBy t ((H.log n).take i)) : LogOK S H n t (l.commitTo i) := by
  obtain ⟨hc1,hc2⟩ := h.repr.commitTo_eq hi
  have hb : (l.commitTo i).base = l.base := by simp [RaftLog.base]
  refine ⟨by rw [hc2]; exact h.panicked,h.repr.commitTo i,?_,?_,?_,?_,?_,?_⟩
  · rw [hb,RaftLog.commitTo_applied]
    exact h.base_le
  · rw [hc1,RaftLog.commitTo_applied]
    exact h.applied_le.trans (le_max_left _ _)
  · rw [hc1]
    exact max_le h.commit_le hi
  · rw [hc1]
    rcases max_choice l.committed i with hm | hm <;> rw [hm]
    · exact h.committed
    · exact hc
  · rw [RaftLog.commitTo_storage]
    exact h.snap
  intro snap hs
  rw [RaftLog.commitTo_unstable] at hs
  rw [RaftLog.commitTo_storage]
  exact h.pending snap hs

theorem Content.ext {m : Message} (h : Content S H m) (hx : Ext H H') : Content S H' m := by
  unfold Content at *
  cases ht : m.type <;> simp only [ht] at h ⊢
  case vote =>
    obtain ⟨l,hl,h⟩ := h
    exact ⟨l,hx.cand _ _ _ hl,h⟩
  case voteResp =>
    intro hr
    obtain ⟨b,hb,h⟩ := h hr
    exact ⟨b,hx.ballot _ _ _ hb,h⟩
  case append =>
    obtain ⟨he,⟨p,hp,hpt,hpe⟩,c,hc,hcc⟩ := h
    exact ⟨he.ext hx,⟨p,hp,hpt,hpe.trans (hx.lead _)⟩,c,hc,hcc.ext hx⟩
  case appendResp =>
    exact ⟨fun hr => (h.1 hr).trans (hx.ack _ _),fun hr => (h.2 hr).trans (hx.lead _).length_le⟩
  case heartbeat =>
    obtain ⟨he,ha,c,hc,hcc⟩ := h
    exact ⟨he.ext hx,ha.trans (hx.ack _ _),c,hc,hcc.ext hx⟩
  case installSnapshot =>
    obtain ⟨he,snap,hs,hi,hk⟩ := h
    exact ⟨he.ext hx,snap,hs,hi,hk.ext hx⟩
  case installSnapshotResp => exact h.trans (hx.ack _ _)

theorem MsgOK.ext {m : Message} (h : MsgOK S H m) (hx : Ext H H') : MsgOK S H' m :=
  ⟨h.sender,h.ne,h.term,h.content.ext hx⟩

end ext

section facts
variable {S : Setup} {H : Hist} {n : Nat}

/-- A leader voted for itself in its term. -/
theorem Good.elected_cand (hg : Good S H) {t c : Nat} (h : H.Elected t c) : ∃ l, H.cand c t = some l := by
  obtain ⟨Q,hQ,hb⟩ := hg.inv.backed h
  obtain ⟨q,hq⟩ := Setup.quorum_nonempty hQ
  obtain ⟨b,hbq,rfl⟩ := hb q hq
  obtain ⟨l,hl,_⟩ := hg.inv.ballot_cand q t b hbq
  exact ⟨l,hl⟩

theorem Durable.elected {term vote : Nat} (h : Durable S H n term vote) (hg : Good S H) {t : Nat}
    (he : H.Elected t n) : t ≤ term := by
  obtain ⟨l,hl⟩ := hg.elected_cand he
  exact (h.cand t l hl).1

theorem Durable.no_ballot {term vote : Nat} (h : Durable S H n term vote) {t : Nat} (ht : term < t) :
    H.ballot n t = none := by
  cases hb : H.ballot n t with
  | none => rfl
  | some b => rcases h.ballot t b hb with h | h <;> omega

theorem Durable.no_cand {term vote : Nat} (h : Durable S H n term vote) {t : Nat} (ht : term < t) :
    H.cand n t = none := by
  cases hc : H.cand n t with
  | none => rfl
  | some l =>
    have := (h.cand t l hc).1
    omega

theorem Durable.no_ack {term vote : Nat} (h : Durable S H n term vote) {t : Nat} (ht : term < t) :
    H.ack n t = 0 := by
  by_contra hne
  have := h.ack t (Nat.pos_of_ne_zero hne)
  omega

theorem Leads.holds {t : Nat} {prs : AList (fun _ : Nat => Progress)} (h : Leads H n t prs) : Holds H n t := by
  rw [Holds,h.log]
  exact List.take_prefix _ _

/-- Nothing is acknowledged in a term to come. -/
theorem Durable.holds {term vote : Nat} (h : Durable S H n term vote) {t : Nat} (ht : term < t) : Holds H n t := by
  rw [Holds,h.no_ack ht,List.take_zero]
  exact List.nil_prefix

theorem Good.log_indexed (hg : Good S H) (n : Nat) : Indexed (H.log n) :=
  (hg.indexed _).of_isPrefix (hg.inv.log_coh n).prefix_lead

/-- Equal terms at one index: equal prefixes up to it. -/
theorem take_eq_of_termAt_eq {xs ys : List Entry} (hx : H.Coherent Entry.term xs)
    (hy : H.Coherent Entry.term ys) {i : Nat} (hi : i ≤ xs.length) (hj : i ≤ ys.length)
    (ht : termAt xs i = termAt ys i) : xs.take i = ys.take i := by
  cases i with
  | zero => simp
  | succ i =>
    have hxi : xs.take (i + 1) = xs.take i ++ [xs.get ⟨i,by omega⟩] := by simp
    have hyi : ys.take (i + 1) = ys.take i ++ [ys.get ⟨i,by omega⟩] := by simp
    rw [hxi,hyi]
    apply hx.matching hy
    · rw [← hxi]
      exact List.take_prefix _ _
    · rw [← hyi]
      exact List.take_prefix _ _
    · simp
      omega
    have h1 : termAt xs (i + 1) = (xs.get ⟨i,by omega⟩).term :=
      termAt_succ_of_getElem? (by simp [List.getElem?_eq_getElem (by omega : i < xs.length)])
    have h2 : termAt ys (i + 1) = (ys.get ⟨i,by omega⟩).term :=
      termAt_succ_of_getElem? (by simp [List.getElem?_eq_getElem (by omega : i < ys.length)])
    rw [← h1,← h2,ht]

theorem Good.elected_pos (hg : Good S H) {t c : Nat} (h : H.Elected t c) : 0 < t := by
  obtain ⟨e,he,_⟩ := hg.inv.won.own h.mem_terms
  apply Nat.pos_of_ne_zero
  rintro rfl
  rw [hg.inv.lead_zero] at he
  simp at he

theorem Good.termAt_pos (hg : Good S H) {xs : List Entry} (hx : H.Coherent Entry.term xs) {i : Nat}
    (hi : 0 < i) (hle : i ≤ xs.length) : 0 < termAt xs i := by
  obtain ⟨j,rfl⟩ : ∃ j, i = j + 1 := ⟨i - 1,by omega⟩
  obtain ⟨e,he⟩ : ∃ e, xs[j]? = some e := ⟨_,List.getElem?_eq_getElem (by omega)⟩
  rw [termAt_succ_of_getElem? he]
  exact hx.pos hg.inv (List.mem_of_getElem? he)

theorem Good.committed_coherent (hg : Good S H) {t : Nat} {p : List Entry} (h : H.CommittedBy t p) :
    H.Coherent Entry.term p := by
  obtain ⟨s,_,hp⟩ := h
  exact (hg.inv.lead_coh s).of_isPrefix (hp.trans (List.take_prefix _ _))

theorem not_solo_of_ne {q : Nat} (hq : q ≠ n) (hn : n ∈ S.peers) (hqm : q ∈ S.peers) : ¬ S.quorums.Solo := by
  intro hs
  obtain ⟨x,hx⟩ := List.length_eq_one_iff.mp hs
  rw [hx] at hn hqm
  exact hq ((List.mem_singleton.mp hqm).trans (List.mem_singleton.mp hn).symm)

theorem LogOK.prefix_lead {term : Nat} {l : RaftLog} (h : LogOK S H n term l) (hg : Good S H) {t : Nat}
    (ht : t ∈ terms H.elections) (hle : term ≤ t) : (H.log n).take l.committed <+: H.lead t :=
  h.committed.prefix_lead hg.inv ht hle

theorem LogOK.prefix_log {term : Nat} {l : RaftLog} (h : LogOK S H n term l) (hg : Good S H) {t : Nat}
    {p : List Entry} (hp : H.CommittedBy t p) (hle : p.length ≤ l.committed) : p <+: H.log n := by
  have hcl := h.commit_le
  rcases hp.comparable hg.inv h.committed with hpc | hcp
  · exact hpc.trans (List.take_prefix _ _)
  have := hcp.length_le
  rw [List.length_take] at this
  rw [← hcp.eq_of_length (by rw [List.length_take]; omega)]
  exact List.take_prefix _ _

end facts
end Parallax.Cluster
