import Parallax.Cluster.Leader
import Parallax.Raft.Track

/-! Role changes and elections. -/
namespace Parallax.Cluster
open Consensus Consensus.History
variable {S : Setup} {H : Hist} {n t : Nat} {r : Raft}

theorem Durable.mono {term vote term' : Nat} (h : Durable S H n term vote) (hlt : term < term') :
    Durable S H n term' None where
  ballot t b hb := by
    rcases h.ballot t b hb with h | h
    · exact .inl (h.trans hlt)
    · exact .inl (h.1 ▸ hlt)
  vote h := absurd rfl h
  ack t ht := (h.ack t ht).trans hlt.le
  cand t l hl := ⟨(h.cand t l hl).1.trans hlt.le,(h.cand t l hl).2⟩
  solo hs := ⟨fun e he => ((h.solo hs).1 e he).trans (Nat.succ_le_succ hlt.le),
    fun t ht => (h.solo hs).2 t (hlt.trans ht)⟩

/-- Moving to a term at or above the current one as a follower. -/
theorem Ok.becomeFollower (h : Ok S H n r) (term lead : Nat) (hle : r.term ≤ term)
    (hlead : lead ≠ None → 0 < term) : Ok S H n (r.becomeFollower term lead) where
  id := h.id
  peers := h.peers
  panicked := h.panicked
  log := h.log.mono hle
  durable := by
    change Durable S H n term (if r.term = term then r.vote else None)
    split_ifs with ht
    · exact ht ▸ h.durable
    · exact h.durable.mono (lt_of_le_of_ne hle ht)
  leads hs := by cases hs
  com hs := by cases hs
  stands hs := by cases hs
  prs v hv := by
    change ((Raft.initProgress _ _ r.peers).lookup v).isSome
    rw [Raft.lookup_initProgress,if_pos (h.peers.mem_iff.mpr hv)]
    rfl
  reads := ReadOnly.WF.empty
  lead := hlead
  msgs := h.msgs
  msgs_term m hm h1 h2 := (h.msgs_term m hm h1 h2).trans hle
  probes m hm h1 := (h.probes m hm h1).trans (Nat.succ_le_succ hle)

theorem At.becomeFollower (h : At S H n r) (term lead : Nat) (hle : r.term ≤ term)
    (hlead : lead ≠ None → 0 < term) : At S H n (r.becomeFollower term lead) :=
  ⟨h.mem,h.good,h.ok.becomeFollower term lead hle hlead⟩

theorem At.becomePreCandidate (h : At S H n r) (hs : r.state ≠ .leader) :
    At S H n r.becomePreCandidate := by
  unfold Raft.becomePreCandidate
  rw [if_neg hs]
  refine ⟨h.mem,h.good,?_⟩
  exact { h.ok with
    leads := fun hs => by cases hs
    com := fun hs => by cases hs
    stands := fun hs => by cases hs
    lead := fun hne => absurd rfl hne }

theorem At.becomeCandidate (h : At S H n r) (hs : r.state ≠ .leader) :
    Reaches S H n r r.becomeCandidate ∧ r.becomeCandidate.term = r.term + 1 ∧
      r.becomeCandidate.state = .candidate := by
  unfold Raft.becomeCandidate
  rw [if_neg hs]
  refine ⟨?_,rfl,rfl⟩
  have ho := h.ok
  have hc : H.cand n (r.term + 1) = none := ho.durable.no_cand (Nat.lt_succ_self _)
  have hb : H.ballot n (r.term + 1) = none := ho.durable.no_ballot (Nat.lt_succ_self _)
  have hx : Ext H ((H.campaign n (r.term + 1)).vote n (r.term + 1) n) :=
    (Ext.campaign hc).trans (Ext.vote hb)
  refine ⟨(H.campaign n (r.term + 1)).vote n (r.term + 1) n,(Frame.campaign hc).trans (Frame.vote hb),
    ⟨h.mem,⟨?_,h.good.indexed,?_⟩,?_⟩,Nat.le_succ _,fun _ => ho.durable.holds (Nat.lt_succ_self _)⟩
  · refine (h.good.inv.campaign hc).vote hb (fun s hs => ?_) (campaign_cand_self _ _)
      (.inr ⟨rfl,le_rfl⟩)
    exact ho.durable.no_ballot (Nat.lt_of_succ_lt hs)
  · intro c t l hl
    rw [vote_cand,campaign_cand] at hl
    split_ifs at hl with hcn
    · exact hcn.1 ▸ h.mem
    · exact h.good.member c t l hl
  refine
    { id := ho.id, peers := ho.peers, panicked := ho.panicked
      log := (ho.log.mono (Nat.le_succ _)).ext hx rfl
      durable := ?_
      leads := fun hs => by cases hs
      com := fun hs => by cases hs
      stands := fun _ => ?_
      prs := (ho.becomeFollower _ None (Nat.le_succ _) (fun hne => absurd rfl hne)).prs
      reads := ReadOnly.WF.empty
      lead := fun hne => absurd rfl hne
      msgs := fun m hm => ⟨(ho.msgs m hm).1.ext hx,(ho.msgs m hm).2⟩
      msgs_term := fun m hm h1 h2 => (ho.msgs_term m hm h1 h2).trans (Nat.le_succ _)
      probes := fun m hm h1 => (ho.probes m hm h1).trans (Nat.le_succ _) }
  · change Durable S _ n (r.term + 1) r.id
    rw [ho.id]
    have hd := ho.durable.mono (Nat.lt_succ_self r.term)
    refine ⟨fun t b hb' => ?_,fun _ => ⟨_,vote_ballot_self _ _ _,rfl⟩,hd.ack,fun t l hl => ?_,hd.solo⟩
    · rw [vote_ballot] at hb'
      split_ifs at hb' with htn
      · obtain rfl := Option.some.inj hb'
        exact .inr ⟨htn.2,rfl⟩
      rcases hd.ballot t b hb' with hlt | ⟨rfl,_⟩
      · exact .inl hlt
      · exact absurd ⟨rfl,rfl⟩ htn
    rw [vote_cand,campaign_cand] at hl
    split_ifs at hl with htn
    · exact ⟨htn.2.le,_,by rw [htn.2]; exact vote_ballot_self _ _ _,rfl⟩
    · obtain ⟨hle,b,hbn,hbc⟩ := hd.cand t l hl
      exact ⟨hle,b,hx.ballot _ _ _ hbn,hbc⟩
  refine ⟨campaign_cand_self _ _,⟨_,vote_ballot_self _ _ _,rfl,rfl⟩,?_,Nat.succ_pos _,?_,?_⟩
  · intro he
    exact absurd (ho.durable.elected h.good he) (Nat.not_succ_le_self _)
  · exact fun hsolo => ⟨(ho.durable.solo hsolo).1,(ho.durable.solo hsolo).2 _ (Nat.lt_succ_self _)⟩
  intro v hv
  change AList.lookup v (∅ : AList fun _ : Nat => Bool) = some true at hv
  simp at hv

/-- The voters counted by a tally. -/
theorem tally_quorum (hp : r.peers.Perm S.peers) (hv : ∀ v, r.votes.lookup v = some true → v ∈ S.peers)
    (ht : r.tallyGranted ≥ r.quorum) :
    ∃ Q, S.quorums.IsQuorum Q ∧ ∀ q ∈ Q, r.votes.lookup q = some true := by
  have hlook : ∀ v, v ∈ ((r.votes.entries.filter fun b => b.2).map Sigma.fst) →
      r.votes.lookup v = some true := by
    intro v hv
    obtain ⟨⟨v',b⟩,hb,rfl⟩ := List.mem_map.mp hv
    obtain ⟨hmem,htrue⟩ := List.mem_filter.mp hb
    obtain rfl : b = true := htrue
    exact AList.mem_lookup_iff.mpr hmem
  have hnd : ((r.votes.entries.filter fun b => b.2).map Sigma.fst).Nodup :=
    (List.Sublist.map _ List.filter_sublist).nodup r.votes.nodupKeys
  refine ⟨((r.votes.entries.filter fun b => b.2).map Sigma.fst).toFinset,⟨?_,?_⟩,?_⟩
  · intro v hmem
    rw [List.mem_toFinset] at hmem ⊢
    exact hv v (hlook v hmem)
  · rw [List.toFinset_card_of_nodup hnd,List.length_map,← hp.length_eq]
    exact ht
  · intro v hmem
    exact hlook v (List.mem_toFinset.mp hmem)

/-- A candidate with a majority becomes the leader of its term. -/
theorem At.becomeLeader (h : At S H n r) (hs : r.state = .candidate)
    (ht : r.tallyGranted ≥ r.quorum) : Leadership S H n r.term r.becomeLeader := by
  have ho := h.ok
  have hst := ho.stands hs
  obtain ⟨Q,hQ,hvotes⟩ := tally_quorum ho.peers (fun v hv => (hst.votes v hv).1) ht
  have hb : ∀ q ∈ Q, ∃ b, H.ballot q r.term = some b ∧ b.cand = n := fun q hq => (hst.votes q (hvotes q hq)).2
  unfold Raft.becomeLeader
  rw [if_neg (by rw [hs]; simp)]
  have hw : ∀ e₀ : Entry, e₀.term = r.term → Writable S.quorums Entry.term H n r.term [e₀]
      [{ term := r.term, leader := n, voters := Q }] := by
    intro e₀ he₀
    refine h.good.inv.writable_elect hst.pos hst.cand hst.fresh hQ hb he₀ fun hsolo => ?_
    refine ⟨(hst.solo hsolo).1,(hst.solo hsolo).2,fun q hq b hbq => ?_⟩
    obtain ⟨b',hb',_,hbl⟩ := hst.own
    have hqn : q = n := by
      obtain ⟨x,hx⟩ := List.length_eq_one_iff.mp hsolo
      have h1 := List.mem_toFinset.mp (hQ.1 hq)
      have h2 := h.mem
      rw [hx] at h1 h2
      rw [List.mem_singleton.mp h1,List.mem_singleton.mp h2]
    subst hqn
    rw [hb'] at hbq
    rw [← Option.some.inj hbq]
    exact hbl
  have hnot : ∀ q, ¬ H.Elected r.term q := by
    intro q hq
    rw [(h.good.inv.backed hq).unique ⟨Q,hQ,hb⟩] at hq
    exact hst.fresh hq
  suffices hwriting : Writing S H n { r.reset r.term with lead := r.id, state := .leader }
      [{ type := .noop }] [{ term := r.term, leader := n, voters := Q }] from hwriting.appendEntry (by simp)
  refine
    { mem := h.mem, good := h.good, ok := ?_, state := rfl, writable := hw _ rfl
      mine := by simp
      own := fun q _ => hnot q
      elected := .inl ⟨_,List.mem_singleton_self _,rfl,rfl⟩
      matched := fun v pr hpr => ?_
      next := fun v pr hpr => ?_
      com := ?_ }
  · exact ho.becomeFollower _ r.id le_rfl fun _ => hst.pos
  · change (Raft.initProgress r.id r.raftLog.lastIndex r.peers).lookup v = some pr at hpr
    rw [Raft.lookup_initProgress] at hpr
    split_ifs at hpr with hv hvid
    · obtain rfl := Option.some.inj hpr
      exact .inr ⟨hvid.trans ho.id,ho.log.repr.lastIndex.le⟩
    · obtain rfl := Option.some.inj hpr
      exact .inl (Nat.zero_le _)
  · change (Raft.initProgress r.id r.raftLog.lastIndex r.peers).lookup v = some pr at hpr
    rw [Raft.lookup_initProgress] at hpr
    split_ifs at hpr with hv hvid <;> obtain rfl := Option.some.inj hpr <;>
      exact ⟨Nat.succ_pos _,by simp [ho.log.repr.lastIndex]⟩
  change H.com r.term ≤ _
  by_cases hz : H.com r.term = 0
  · rw [hz]
    exact Nat.zero_le _
  · obtain ⟨q,hq⟩ := exists_elected (h.good.inv.com_ok _ hz).1
    exact absurd hq (hnot q)

theorem At.recordVote (h : At S H n r) {v : Nat} {granted : Bool}
    (hv : r.state = .candidate → granted = true → v ∈ S.peers ∧ ∃ b, H.ballot v r.term = some b ∧ b.cand = n) :
    At S H n (r.recordVote v granted) := by
  unfold Raft.recordVote
  split
  · refine ⟨h.mem,h.good,{ h.ok with stands := fun hs => ?_ }⟩
    have hst := h.ok.stands hs
    refine { hst with votes := fun u hu => ?_ }
    by_cases huv : u = v
    · subst huv
      rw [AList.lookup_insert] at hu
      exact hv hs (Option.some.inj hu)
    · rw [AList.lookup_insert_ne huv] at hu
      exact hst.votes u hu
  · exact h

end Parallax.Cluster
