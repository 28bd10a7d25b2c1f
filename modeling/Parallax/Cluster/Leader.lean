import Parallax.Cluster.Sending
import Parallax.Raft.Commit

/-! A leader's own log and its commit index: appending entries and committing what a
majority acknowledged. -/
namespace Parallax.Cluster
open Consensus Consensus.History
variable {S : Setup} {H : Hist} {n t : Nat} {r : Raft}

/-- From the current history the core of `n` comes to lead `t` as `r'`. -/
def Leadership (S : Setup) (H : Hist) (n t : Nat) (r' : Raft) : Prop :=
  ∃ H', Frame n H H' ∧ Leading S H' n t r'

theorem Leadership.map {r' r'' : Raft} (h : Leadership S H n t r')
    (hf : ∀ H', Leading S H' n t r' → Leading S H' n t r'') : Leadership S H n t r'' := by
  obtain ⟨H',hx,hl⟩ := h
  exact ⟨H',hx,hf H' hl⟩

theorem Leadership.reaches {r' : Raft} (h : Leadership S H n t r') (ht : r.term ≤ t) :
    Reaches S H n r r' := by
  obtain ⟨H',hx,hl⟩ := h
  exact ⟨H',hx,hl.core,by rw [hl.term]; exact ht,fun _ => hl.leads.holds⟩

namespace Leading

private theorem progress (h : Leading S H n t r) : ∀ id ∈ r.peers, (r.prs.lookup id).isSome :=
  fun id hid => h.core.ok.prs id (h.core.ok.peers.mem_iff.mp hid)

private theorem peers_ne_nil (h : Leading S H n t r) : r.peers ≠ [] :=
  List.ne_nil_of_mem (h.core.ok.peers.mem_iff.mpr h.core.mem)

theorem quorum_acked (h : Leading S H n t r) {mci : Nat}
    (hm : ((r.peers.map r.matchOf).insertionSort (· ≤ ·))[(r.peers.map r.matchOf).length - r.quorum]? = some mci) :
    ∃ Q, S.quorums.IsQuorum Q ∧ ∀ q ∈ Q, mci ≤ H.ack q r.term := by
  have hperm := h.core.ok.peers
  refine ⟨(r.peers.filter fun id => mci ≤ r.matchOf id).toFinset,⟨?_,?_⟩,?_⟩
  · intro q hq
    rw [List.mem_toFinset] at hq ⊢
    exact hperm.mem_iff.mp (List.mem_of_mem_filter hq)
  · have hnd : r.peers.Nodup := hperm.nodup_iff.mpr S.nodup
    have hle : r.quorum ≤ (r.peers.map r.matchOf).length := by
      rw [List.length_map]
      exact (Raft.quorum_pos_le h.peers_ne_nil).2
    have hc : r.quorum ≤ _ := (isGreatest_reached hle hm).1
    rw [List.countP_map] at hc
    rw [List.toFinset_card_of_nodup (hnd.filter _),← List.countP_eq_length_filter,← hperm.length_eq]
    have hq : r.quorum = r.peers.length / 2 + 1 := rfl
    simp only [Function.comp_def] at hc
    omega
  intro q hq
  rw [List.mem_toFinset,List.mem_filter] at hq
  obtain ⟨pr,hpr⟩ := Option.isSome_iff_exists.mp (h.progress q hq.1)
  have hle := hq.2
  rw [Raft.matchOf,hpr] at hle
  simp only [Option.getD_some,decide_eq_true_eq] at hle
  exact hle.trans (h.leads.matched q pr hpr)

theorem maybeCommit (h : Leading S H n t r) : Leadership S H n t r.maybeCommit.1 := by
  obtain ⟨mci,hmci⟩ := Raft.exists_candidate h.peers_ne_nil
  unfold Raft.maybeCommit
  rw [Raft.matchValues_eq h.progress]
  simp only [List.length_insertionSort]
  rw [hmci]
  simp only
  obtain ⟨Q,hQ,hack⟩ := h.quorum_acked hmci
  have hlog := h.core.ok.log
  have hin : mci ≤ (H.log n).length := by
    obtain ⟨q,hq⟩ := Setup.quorum_nonempty hQ
    rw [h.leads.log]
    exact (hack q hq).trans (h.core.good.inv.ack_le q r.term)
  unfold RaftLog.maybeCommit
  by_cases hgt : mci > r.raftLog.committed
  swap
  · rw [if_neg hgt]
    exact ⟨H,Frame.refl n H,h⟩
  rw [if_pos hgt,hlog.repr.term_eq (by have := hlog.base_le; have := hlog.applied_le; omega)]
  by_cases ht : termAt (H.log n) mci = r.term
  swap
  · rw [if_neg ht]
    exact ⟨H,Frame.refl n H,h⟩
  rw [if_pos ht]
  -- An entry of the current term, acknowledged by a majority: the history commits it.
  have hcom : H.Committable S.quorums Entry.term r.term mci := by
    refine ⟨h.leads.elected.mem_terms,?_,Q,hQ,hack⟩
    obtain ⟨j,rfl⟩ : ∃ j, mci = j + 1 := ⟨mci - 1,by omega⟩
    obtain ⟨e,he⟩ : ∃ e, (H.log n)[j]? = some e := ⟨_,List.getElem?_eq_getElem (by omega)⟩
    refine ⟨(H.log n).take j,e,?_,?_,?_⟩
    · rw [← h.leads.log]
      have : (H.log n).take j ++ [e] = (H.log n).take (j + 1) := by
        rw [List.take_add_one,he]
        rfl
      rw [this]
      exact List.take_prefix _ _
    · rw [List.length_take]
      omega
    · rw [← ht,termAt_succ_of_getElem? he]
  have hown : ∀ q, q ≠ n → ¬ H.Elected r.term q :=
    fun q hq he => hq (h.core.good.inv.elected_unique he h.leads.elected)
  have hx : Ext H (H.commit r.term mci) := Ext.commit H _ _
  have hc1 := (hlog.repr.commitTo_eq hin).1
  have hcby : (H.commit r.term mci).CommittedBy r.term (((H.commit r.term mci).log n).take mci) := by
    refine ⟨r.term,le_rfl,?_⟩
    rw [commit_lead,commit_log,commit_com_self,h.leads.log]
    rw [show (H.lead r.term).take mci = ((H.lead r.term).take (max (H.com r.term) mci)).take mci by
      rw [List.take_take,min_eq_left (le_max_right _ _)]]
    exact List.take_prefix _ _
  refine ⟨H.commit r.term mci,Frame.commit hown mci,releasePendingReadIndexMessages ⟨⟨h.core.mem,?_,?_⟩,h.state,h.term⟩⟩
  · exact ⟨h.core.good.inv.commit hcom,h.core.good.indexed,h.core.good.member⟩
  have ho := h.core.ok
  exact
    { id := ho.id, peers := ho.peers, panicked := ho.panicked
      log := (hlog.ext hx rfl).commitTo hin hcby
      durable := { ho.durable with }
      leads := fun hs => { ho.leads hs with }
      com := fun _ => by
        change (H.commit r.term mci).com r.term ≤ (r.raftLog.commitTo mci).committed
        rw [commit_com_self,hc1]
        exact max_le_max (ho.com h.state) le_rfl
      stands := fun hs => absurd (h.state ▸ hs) (by simp)
      prs := ho.prs, reads := ho.reads, lead := ho.lead
      msgs := fun m hm => ⟨(ho.msgs m hm).1.ext hx,(ho.msgs m hm).2⟩
      msgs_term := ho.msgs_term, probes := ho.probes }

end Leading

theorem stampEntries_length (t li : Nat) (es : List Entry) : (Raft.stampEntries t li es).length = es.length := by
  induction es generalizing li with
  | nil => rfl
  | cons e es ih => simp [Raft.stampEntries,ih]

theorem stampEntries_indexed (t li : Nat) (es : List Entry) : IndexedFrom li (Raft.stampEntries t li es) := by
  induction es generalizing li with
  | nil => exact IndexedFrom.nil li
  | cons e es ih =>
    intro i e' he'
    cases i with
    | zero =>
      obtain rfl : _ = e' := by simpa [Raft.stampEntries] using he'
      rfl
    | succ i =>
      rw [ih (li + 1) i e' (by simpa [Raft.stampEntries] using he')]
      omega

theorem stampEntries_term (t li : Nat) (es : List Entry) : ∀ e ∈ Raft.stampEntries t li es, e.term = t := by
  induction es generalizing li with
  | nil => simp [Raft.stampEntries]
  | cons e es ih =>
    intro e' he'
    rcases List.mem_cons.mp he' with rfl | he'
    · rfl
    · exact ih (li + 1) e' he'

/-- A core about to write as leader of its term: what holds of it apart from its role. -/
structure Writing (S : Setup) (H : Hist) (n : Nat) (r : Raft) (es : List Entry)
    (els : List (Election Nat)) : Prop where
  mem : n ∈ S.peers
  good : Good S H
  ok : Ok S H n { r with state := .follower }
  state : r.state = .leader
  writable : Writable S.quorums Entry.term H n r.term (Raft.stampEntries r.term (H.log n).length es) els
  mine : ∀ el ∈ els, el.leader = n
  own : ∀ q, q ≠ n → ¬ H.Elected r.term q
  elected : (∃ el ∈ els, el.term = r.term ∧ el.leader = n) ∨ H.Elected r.term n
  matched : ∀ v pr, r.prs.lookup v = some pr →
    pr.matched ≤ H.ack v r.term ∨ (v = n ∧ pr.matched ≤ (H.log n).length)
  next : ∀ v pr, r.prs.lookup v = some pr → 1 ≤ pr.next ∧ pr.next ≤ (H.log n).length + 1
  com : H.com r.term ≤ r.raftLog.committed

namespace Writing
variable {es : List Entry} {els : List (Election Nat)}

/-- The entries as they are written. -/
abbrev stamped (H : Hist) (n : Nat) (r : Raft) (es : List Entry) : List Entry :=
  Raft.stampEntries r.term (H.log n).length es

/-- The history in which the entries are written and the leader acknowledges them. -/
abbrev written (H : Hist) (n : Nat) (r : Raft) (es : List Entry) (els : List (Election Nat)) : Hist :=
  (H.write n r.term (stamped H n r es) els).acknowledge n r.term (H.log n ++ stamped H n r es).length

private theorem written_log (H : Hist) (n : Nat) (r : Raft) (es : List Entry) (els : List (Election Nat)) :
    (written H n r es els).log n = H.log n ++ stamped H n r es := write_log_self n r.term _ els

private theorem written_lead (H : Hist) (n : Nat) (r : Raft) (es : List Entry) (els : List (Election Nat)) :
    (written H n r es els).lead r.term = H.log n ++ stamped H n r es := write_lead_self n r.term _ els

private theorem written_lead_ne (H : Hist) (n : Nat) (r : Raft) (es : List Entry) (els : List (Election Nat)) {t : Nat}
    (ht : t ≠ r.term) : (written H n r es els).lead t = H.lead t := write_lead_ne n r.term t _ els ht

private theorem ext (h : Writing S H n r es els) : Ext H (written H n r es els) :=
  (Ext.write _ els h.writable.lead_log).trans (Ext.acknowledge _ _ _ _)

private theorem frame (h : Writing S H n r es els) : Frame n H (written H n r es els) :=
  (Frame.write h.writable.lead_log h.own h.mine).trans (Frame.acknowledge _ _ _)

private theorem written_good (h : Writing S H n r es els) : Good S (written H n r es els) := by
  have hdur : Durable S H n r.term r.vote := h.ok.durable
  refine ⟨(h.good.inv.write h.writable).acknowledge ?_ ?_ ?_,fun t => ?_,h.good.member⟩
  · rw [write_lead_self]
  · rw [write_lead_self,write_log_self,List.take_length]
  · exact fun s hs => hdur.no_ballot hs
  by_cases ht : t = r.term
  · subst ht
    rw [written_lead]
    exact (h.good.log_indexed n).append (stampEntries_indexed _ _ _)
  · rw [written_lead_ne H n r es els ht]
    exact h.good.indexed t

private theorem ack_self (h : Writing S H n r es els) :
    (written H n r es els).ack n r.term = (H.log n ++ stamped H n r es).length := by
  rw [acknowledge_ack_self]
  apply max_eq_right
  have hpl := (h.ext.lead r.term).length_le
  rw [written_lead] at hpl
  exact (h.good.inv.ack_le n r.term).trans hpl

private theorem logOK (h : Writing S H n r es els) (hne : es ≠ []) :
    LogOK S (written H n r es els) n r.term (r.raftLog.append (stamped H n r es)) := by
  have hlog : LogOK S H n r.term r.raftLog := h.ok.log
  have hx := h.ext
  have hentsne : stamped H n r es ≠ [] := by
    intro hnil
    apply hne
    rw [← List.length_eq_zero_iff,← stampEntries_length r.term (H.log n).length es]
    exact congrArg List.length hnil
  obtain ⟨hrep,hpan,hsnap⟩ := hlog.repr.append hlog.repr.le le_rfl (stampEntries_indexed _ _ _) hentsne
  rw [List.take_length] at hrep
  have hlogn := written_log H n r es els
  have hbase : (r.raftLog.append (stamped H n r es)).base = r.raftLog.base := by
    unfold RaftLog.base
    rw [hsnap,RaftLog.append_storage]
  refine ⟨hpan.trans hlog.panicked,hlogn ▸ hrep,?_,?_,?_,?_,?_,?_⟩
  · rw [hbase,RaftLog.append_applied]
    exact hlog.base_le
  · rw [RaftLog.append_applied,RaftLog.append_committed]
    exact hlog.applied_le
  · rw [RaftLog.append_committed,hlogn,List.length_append]
    exact hlog.commit_le.trans (Nat.le_add_right _ _)
  · rw [RaftLog.append_committed,hlogn,List.take_append_of_le_length hlog.commit_le]
    exact hlog.committed.ext hx
  · rw [RaftLog.append_storage]
    exact hlog.snap.ext hx
  intro snap hs
  rw [hsnap] at hs
  rw [RaftLog.append_storage]
  exact ⟨(hlog.pending snap hs).1.ext hx,(hlog.pending snap hs).2⟩

private theorem durable (h : Writing S H n r es els) : Durable S (written H n r es els) n r.term r.vote := by
  have hdur : Durable S H n r.term r.vote := h.ok.durable
  refine ⟨hdur.ballot,hdur.vote,fun t ht => ?_,hdur.cand,fun hsolo => ⟨?_,?_⟩⟩
  · by_cases hte : t = r.term
    · exact hte.le
    · rw [acknowledge_ack,if_neg (fun hh => hte hh.2)] at ht
      exact hdur.ack t ht
  · rw [written_log]
    intro e he
    rcases List.mem_append.mp he with he | he
    · exact (h.writable.log_le e he).trans (Nat.le_succ _)
    · exact (h.writable.entries e he).le.trans (Nat.le_succ _)
  intro t ht
  rw [written_lead_ne H n r es els ht.ne',written_log]
  exact ((hdur.solo hsolo).2 t ht).trans (List.prefix_append _ _)

theorem leads (h : Writing S H n r es els) {pr : Progress} (hpr : r.prs.lookup n = some pr) :
    Leads (written H n r es els) n r.term
      (r.prs.insert n (pr.maybeUpdate (H.log n ++ stamped H n r es).length).1) := by
  have hack : ∀ v, H.ack v r.term ≤ (written H n r es els).ack v r.term := fun v => h.ext.ack v r.term
  have hackn := h.ack_self
  have hlogn := written_log H n r es els
  refine ⟨?_,hlogn.trans (written_lead H n r es els).symm,by rw [hackn,hlogn],fun v p hp => ?_,fun v p hp => ?_⟩
  · rcases h.elected with ⟨el,hel,he⟩ | he
    · exact ⟨el,List.mem_append_left _ hel,he⟩
    · exact he.ext h.ext
  · by_cases hv : v = n
    · subst hv
      rw [AList.lookup_insert] at hp
      obtain rfl := Option.some.inj hp
      rw [hackn]
      simp only [Progress.maybeUpdate]
      split_ifs with hlt
      · exact le_rfl
      rcases h.matched v pr hpr with hm | ⟨_,hm⟩
      · exact (hm.trans (hack v)).trans hackn.le
      · exact hm.trans (by simp)
    rw [AList.lookup_insert_ne hv] at hp
    rcases h.matched v p hp with hm | ⟨hvn,_⟩
    · exact hm.trans (hack v)
    · exact absurd hvn hv
  rw [hlogn]
  by_cases hv : v = n
  · subst hv
    rw [AList.lookup_insert] at hp
    obtain rfl := Option.some.inj hp
    have := (h.next v pr hpr).2
    simp only [Progress.maybeUpdate,List.length_append] at this ⊢
    split_ifs <;> omega
  rw [AList.lookup_insert_ne hv] at hp
  have := h.next v p hp
  simp only [List.length_append]
  omega

theorem appendEntry (h : Writing S H n r es els) (hne : es ≠ []) : Leadership S H n r.term (r.appendEntry es) := by
  have ho := h.ok
  have hid : r.id = n := ho.id
  have hlog := h.logOK hne
  have hlast : (r.raftLog.append (stamped H n r es)).lastIndex = (H.log n ++ stamped H n r es).length := by
    rw [hlog.repr.lastIndex,written_log]
  obtain ⟨pr,hpr⟩ := Option.isSome_iff_exists.mp (ho.prs n h.mem)
  have hself : r.prs.lookup r.id = some pr := hid ▸ hpr
  suffices hL : Leading S (written H n r es els) n r.term { r with
      raftLog := r.raftLog.append (stamped H n r es)
      prs := r.prs.insert r.id (pr.maybeUpdate (H.log n ++ stamped H n r es).length).1 } by
    obtain ⟨H₃,hf,hl⟩ := hL.maybeCommit
    refine ⟨H₃,h.frame.trans hf,?_⟩
    unfold Raft.appendEntry
    rw [(show LogOK S H n r.term r.raftLog from ho.log).repr.lastIndex]
    simp only [hself,hlast]
    exact hl
  refine ⟨⟨h.mem,h.written_good,?_⟩,h.state,rfl⟩
  exact
    { id := hid, peers := ho.peers, panicked := ho.panicked
      log := hlog, durable := h.durable
      leads := fun _ => by
        change Leads _ n r.term (r.prs.insert r.id _)
        rw [hid]
        exact h.leads hpr
      com := fun _ => by
        change (written H n r es els).com r.term ≤ (r.raftLog.append (stamped H n r es)).committed
        rw [RaftLog.append_committed]
        exact h.com
      stands := fun hs => absurd (h.state ▸ hs) (by simp)
      prs := fun v hv => by
        by_cases hvid : v = r.id
        · subst hvid
          simp
        · simp only [AList.lookup_insert_ne hvid]
          exact ho.prs v hv
      reads := ho.reads, lead := ho.lead
      msgs := fun m hm => ⟨(ho.msgs m hm).1.ext h.ext,(ho.msgs m hm).2⟩
      msgs_term := ho.msgs_term, probes := ho.probes }

end Writing
end Parallax.Cluster
