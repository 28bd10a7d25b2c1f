import Parallax.Cluster.Play

/-! Safety of the cluster over whole runs: one leader a term, matching logs, complete
leaders, and one committed log that every node surfaces. -/
namespace Parallax.Cluster
open Consensus Consensus.History
variable {S : Setup} {H : Hist} {s : State S.app} {n : Nat}

/-- The log of a node: its core's while it is up, else the one a start would load. -/
def Host.log {A : App} (h : Host A) : RaftLog := h.vol.elim (RaftLog.newLog h.disk) (·.raft.raftLog)

theorem HostOK.log_repr {h : Host S.app} (hh : HostOK S H n h) : h.log.Repr (H.log n) := by
  unfold Host.log
  cases hv : h.vol with
  | some p => exact (hh.peer p hv).core.ok.log.repr
  | none =>
    apply RaftLog.Repr.of_storage hh.disk.repr
    simp [RaftLog.newLog,hh.disk.repr.lastIndex]

/-- Member 1 wins term 1 and commits its first entry with member 2; member 3 gets it from a
snapshot. -/
def settling : List Move :=
  [.boot 1 0,.boot 2 0,.boot 3 0,.tick 1,.tick 1,.deliver .vote 1 2 0,.deliver .voteResp 2 1 0,
    .deliver .append 1 2 0,.deliver .appendResp 2 1 0,.deliver .append 1 2 0,.compact 1,.tick 1,
    .deliver .heartbeat 1 3 0,.deliver .heartbeatResp 3 1 0,.deliver .installSnapshot 1 3 0]

def settled : State (trio false).app := State.play (trio false) {} settling

theorem settled_reachable : Reachable (trio false) settled := Reachable.play (by decide)

theorem settled_leader : ∃ p, (settled.host 1).vol = some p ∧ p.raft.state = .leader ∧ p.raft.term = 1 := by
  have h : (settled.host 1).vol.any (fun p => p.raft.state = .leader ∧ p.raft.term = 1) = true := by
    decide +kernel
  simpa using (Option.any_eq_true _ _).mp h

theorem settled_member : ∃ p, (settled.host 2).vol = some p ∧ p.raft.raftLog.committed = 1 := by
  have h : (settled.host 2).vol.any (fun p => p.raft.raftLog.committed = 1) = true := by decide +kernel
  simpa using (Option.any_eq_true _ _).mp h

/-- Node `n` was, or is, leader of term `t`. -/
def Led (s : State S.app) (n t : Nat) : Prop :=
  (∃ i r, .stepped n i r ∈ s.hist ∧ r.state = .leader ∧ r.term = t) ∨
  ∃ p, (s.host n).vol = some p ∧ p.raft.state = .leader ∧ p.raft.term = t

theorem Inv.led (h : Inv S s H) (hn : n ∈ S.peers) {t : Nat} (hl : Led s n t) :
    S.quorums.Solo ∨ H.Backed S.quorums t n := by
  rcases hl with ⟨i,r,hr,hs,rfl⟩ | ⟨p,hp,hs,rfl⟩
  · exact (h.obs _ hr hs).2
  · exact .inr (h.good.inv.backed (((h.hosts n hn).peer p hp).core.ok.leads hs).elected)

/-- No term ever has two leaders, over all incarnations of all nodes. -/
theorem election_safety (h : Reachable S s) {n n' t : Nat} (hn : n ∈ S.peers) (hn' : n' ∈ S.peers)
    (hl : Led s n t) (hl' : Led s n' t) : n = n' := by
  obtain ⟨H,hI⟩ := h.inv
  by_contra hne
  have hs := not_solo_of_ne hne hn' hn
  exact hne (((hI.led hn hl).resolve_left hs).unique ((hI.led hn' hl').resolve_left hs))

theorem election_safety_settled : Led settled 1 1 ∧ 1 = 1 :=
  ⟨.inr settled_leader,election_safety settled_reachable (by decide) (by decide) (.inr settled_leader)
    (.inr settled_leader)⟩

/-- The terms of the log do not decrease from its boundary on. -/
def Sorted (l : RaftLog) : Prop :=
  ∀ i j ti tj, l.base.index ≤ i → i ≤ j → j ≤ l.lastIndex → l.term i = .ok ti → l.term j = .ok tj → ti ≤ tj

theorem HostOK.sorted {h : Host S.app} (hh : HostOK S H n h) (hg : Good S H) : Sorted h.log := by
  intro i j ti tj hb hij hj hi hjt
  have hr := hh.log_repr
  rw [hr.lastIndex] at hj
  rw [hr.term_eq hb] at hi
  rw [hr.term_eq (hb.trans hij)] at hjt
  obtain rfl := Except.ok.inj hi
  obtain rfl := Except.ok.inj hjt
  cases i with
  | zero => exact Nat.zero_le _
  | succ i =>
    obtain ⟨j,rfl⟩ : ∃ j', j = j' + 1 := ⟨j - 1,by omega⟩
    have hsort := (hg.inv.log_coh n).sorted hg.inv
    obtain ⟨a,ha⟩ : ∃ a, (H.log n)[i]? = some a := ⟨_,List.getElem?_eq_getElem (by omega)⟩
    obtain ⟨b,hb⟩ : ∃ b, (H.log n)[j]? = some b := ⟨_,List.getElem?_eq_getElem (by omega)⟩
    rw [termAt_succ_of_getElem? ha,termAt_succ_of_getElem? hb]
    rcases Nat.lt_or_eq_of_le hij with hlt | heq
    · obtain ⟨_,rfl⟩ := List.getElem?_eq_some_iff.mp ha
      obtain ⟨_,rfl⟩ := List.getElem?_eq_some_iff.mp hb
      exact List.pairwise_iff_getElem.mp hsort i j _ _ (by omega)
    obtain rfl : i = j := by omega
    rw [ha] at hb
    rw [Option.some.inj hb]

theorem entry?_some {l : RaftLog} {xs : List Entry} (h : l.Repr xs) {i : Nat} {e : Entry}
    (he : l.entry? i = some e) : l.base.index < i ∧ xs[i - 1]? = some e := by
  by_cases hb : l.base.index < i
  · rw [h.entry?_eq hb] at he
    exact ⟨hb,he⟩
  · rw [RaftLog.entry?,if_neg hb] at he
    cases he

theorem Inv.matching (h : Inv S s H) {n m i : Nat} (hn : n ∈ S.peers) (hm : m ∈ S.peers) {a b : Entry}
    (ha : (s.host n).log.entry? i = some a) (hb : (s.host m).log.entry? i = some b) (ht : a.term = b.term)
    {j : Nat} (hj : j ≤ i) (hnj : (s.host n).log.base.index < j) (hmj : (s.host m).log.base.index < j) :
    (s.host n).log.entry? j = (s.host m).log.entry? j := by
  have hrn := (h.hosts n hn).log_repr
  have hrm := (h.hosts m hm).log_repr
  obtain ⟨_,ha⟩ := entry?_some hrn ha
  obtain ⟨_,hb⟩ := entry?_some hrm hb
  obtain ⟨k,rfl⟩ : ∃ k, i = k + 1 := ⟨i - 1,by omega⟩
  rw [Nat.add_sub_cancel] at ha hb
  have htake : (H.log n).take (k + 1) = (H.log m).take (k + 1) := by
    apply take_eq_of_termAt_eq (h.good.inv.log_coh n) (h.good.inv.log_coh m)
    · exact (List.getElem?_eq_some_iff.mp ha).1
    · exact (List.getElem?_eq_some_iff.mp hb).1
    · rw [termAt_succ_of_getElem? ha,termAt_succ_of_getElem? hb,ht]
  rw [hrn.entry?_eq hnj,hrm.entry?_eq hmj,← List.getElem?_take_of_lt (by omega : j - 1 < k + 1),htake,
    List.getElem?_take_of_lt (by omega)]

theorem Inv.leader_grows (h : Inv S s H) (hn : n ∈ S.peers) {p p' : Peer S.app} (hp : (s.host n).vol = some p)
    (hl : p.raft.state = .leader) {s' : State S.app} {H' : Hist} (hx : Ext H H') (h' : Inv S s' H')
    (hp' : (s'.host n).vol = some p') (hl' : p'.raft.state = .leader) (ht : p'.raft.term = p.raft.term) :
    H.log n <+: H'.log n := by
  rw [(((h.hosts n hn).peer p hp).core.ok.leads hl).log,
    (((h'.hosts n hn).peer p' hp').core.ok.leads hl').log,ht]
  exact hx.lead _

/-- Log matching, sorted terms, and append-only leaders. An entry a leader no longer holds
has been compacted into its snapshot. -/
theorem log_matching (h : Reachable S s) :
    (∀ n ∈ S.peers, ∀ m ∈ S.peers, ∀ i a b, (s.host n).log.entry? i = some a →
      (s.host m).log.entry? i = some b → a.term = b.term →
      ∀ j ≤ i, (s.host n).log.base.index < j → (s.host m).log.base.index < j →
        (s.host n).log.entry? j = (s.host m).log.entry? j) ∧
    (∀ n ∈ S.peers, Sorted (s.host n).log) ∧
    ∀ n ∈ S.peers, ∀ p, (s.host n).vol = some p → p.raft.state = .leader →
      ∀ s', Run S s s' → ∀ p', (s'.host n).vol = some p' → p'.raft.state = .leader →
        p'.raft.term = p.raft.term → ∀ i e, p.raft.raftLog.entry? i = some e →
          p'.raft.raftLog.entry? i = some e ∨ i ≤ p'.raft.raftLog.base.index := by
  obtain ⟨H,hI⟩ := h.inv
  refine ⟨fun n hn m hm i a b ha hb ht j hj hnj hmj => hI.matching hn hm ha hb ht hj hnj hmj,
    fun n hn => (hI.hosts n hn).sorted hI.good,?_⟩
  intro n hn p hp hl s' hrun p' hp' hl' ht i e he
  obtain ⟨H',hx,hI'⟩ := hI.run hrun
  obtain ⟨zs,hzs⟩ := hI.leader_grows hn hp hl hx hI' hp' hl' ht
  obtain ⟨_,he⟩ := entry?_some ((hI.hosts n hn).peer p hp).core.ok.log.repr he
  rw [or_iff_not_imp_right,not_le]
  intro hb
  rw [((hI'.hosts n hn).peer p' hp').core.ok.log.repr.entry?_eq hb,← hzs,
    List.getElem?_append_left (List.getElem?_eq_some_iff.mp he).1,he]

theorem log_matching_settled : Reachable (trio false) settled ∧ Sorted (settled.host 3).log :=
  ⟨settled_reachable,(log_matching settled_reachable).2.1 3 (by decide)⟩

/-- Leader completeness: there is one list of committed entries that the committing node
holds, and that every leader from its term on holds from then on, each above its snapshot. -/
theorem leader_completeness (h : Reachable S s) {n : Nat} (hn : n ∈ S.peers) {p : Peer S.app}
    (hp : (s.host n).vol = some p) : ∃ C : List Entry, C.length = p.raft.raftLog.committed ∧
      (∀ i, p.raft.raftLog.base.index < i → i ≤ C.length → p.raft.raftLog.entry? i = C[i - 1]?) ∧
      StandsFor S.app p.raft.raftLog.storage.snapshot C ∧
      ∀ s', Run S s s' → ∀ m ∈ S.peers, ∀ q, (s'.host m).vol = some q → q.raft.state = .leader →
        p.raft.term ≤ q.raft.term → C.length ≤ q.raft.raftLog.lastIndex ∧
          ∀ i, q.raft.raftLog.base.index < i → i ≤ C.length → q.raft.raftLog.entry? i = C[i - 1]? := by
  obtain ⟨H,hI⟩ := h.inv
  have hpk := (hI.hosts n hn).peer p hp
  have hlog := hpk.core.ok.log
  have hlen : ((H.log n).take p.raft.raftLog.committed).length = p.raft.raftLog.committed := by
    rw [List.length_take,min_eq_left hlog.commit_le]
  refine ⟨_,hlen,fun i hb hi => ?_,?_,?_⟩
  · rw [hlen] at hi
    rw [hlog.repr.entry?_eq hb,List.getElem?_take_of_lt (by omega)]
  · obtain ⟨q,hqc,hql,hq⟩ := hlog.snap.standsFor
    have hb : p.raft.raftLog.storage.snapshot.metadata.index ≤ p.raft.raftLog.committed := by
      have := hlog.base_le.trans hlog.applied_le
      unfold RaftLog.base at this
      rwa [hpk.clean.1] at this
    refine hq.mono (List.prefix_take_iff.mpr ⟨?_,by rw [hql]; exact hb⟩)
    exact hlog.prefix_log hI.good hqc (by rw [hql]; exact hb)
  intro s' hrun m hm q hq hl ht
  obtain ⟨H',hx,hI'⟩ := hI.run hrun
  have hqk := ((hI'.hosts m hm).peer q hq).core.ok
  have hlead := hqk.leads hl
  obtain ⟨zs,hzs⟩ := (hlog.committed.ext hx).prefix_lead hI'.good.inv hlead.elected.mem_terms ht
  rw [← hlead.log] at hzs
  refine ⟨?_,fun i hb hi => ?_⟩
  · rw [hqk.log.repr.lastIndex,← hzs,List.length_append]
    exact Nat.le_add_right _ _
  · rw [hqk.log.repr.entry?_eq hb,← hzs,List.getElem?_append_left (by omega)]

theorem leader_completeness_settled : ∃ p, (settled.host 2).vol = some p ∧ p.raft.raftLog.committed = 1 ∧
    ∃ C : List Entry, C.length = 1 ∧ StandsFor recorder p.raft.raftLog.storage.snapshot C := by
  obtain ⟨p,hp,hc⟩ := settled_member
  obtain ⟨C,hC,_,hs,_⟩ := leader_completeness settled_reachable (by decide) hp
  exact ⟨p,hp,hc,C,hC.trans hc,hs⟩

/-- One committed log holds everything that was ever surfaced. -/
theorem Inv.surfaced (hI : Inv S s H) :
    ∃ t C, H.CommittedBy t C ∧ ∀ n rd, .drained n rd ∈ s.hist → Surfaces S.app rd C := by
  obtain ⟨t,C,hc,hC⟩ := CommittedBy.gather hI.good.inv
    (P := fun (o : Obs) xs => ∀ n rd, o = .drained n rd → Surfaces S.app rd xs)
    (fun o xs ys hp ho n rd he => (ho n rd he).mono hp) s.hist fun o ho => by
      cases o with
      | stepped n i r => exact ⟨0,[],.nil 0,fun _ _ he => by cases he⟩
      | drained n rd =>
        obtain ⟨t,q,hc,hq⟩ := hI.obs _ ho
        refine ⟨t,q,hc,fun n' rd' he => ?_⟩
        cases he
        exact hq
  exact ⟨t,C,hc,fun n rd hrd => hC _ hrd n rd rfl⟩

/-- State-machine safety: equal indices, equal entries; and every installed or stored
snapshot stands for one committed log. -/
theorem state_machine_safety (h : Reachable S s) :
    (∀ n rd n' rd', .drained n rd ∈ s.hist → .drained n' rd' ∈ s.hist → ∀ e ∈ rd.committedEntries,
      ∀ e' ∈ rd'.committedEntries, e.index = e'.index → e = e') ∧
    ∃ C : List Entry, (∀ n rd, .drained n rd ∈ s.hist → Surfaces S.app rd C) ∧
      ∀ n ∈ S.peers, StandsFor S.app (s.host n).disk.snapshot C := by
  obtain ⟨H,hI⟩ := h.inv
  obtain ⟨t,C₁,hc₁,hC₁⟩ := hI.surfaced
  obtain ⟨t₂,C₂,hc₂,hC₂⟩ := CommittedBy.gather hI.good.inv
    (P := fun n xs => StandsFor S.app (s.host n).disk.snapshot xs) (fun _ _ _ hp hn => hn.mono hp) S.peers
    fun n hn => by
      obtain ⟨q,hqc,_,hq⟩ := (hI.hosts n hn).disk.snap.standsFor
      exact ⟨_,q,hqc,hq⟩
  refine ⟨fun n rd n' rd' hrd hrd' e he e' he' hi => ?_,?_⟩
  · have h1 := ((hC₁ n rd hrd).1 e he).2
    have h2 := ((hC₁ n' rd' hrd').1 e' he').2
    rw [hi,h2] at h1
    exact (Option.some.inj h1).symm
  rcases hc₁.comparable hI.good.inv hc₂ with hle | hle
  · exact ⟨C₂,fun n rd hrd => (hC₁ n rd hrd).mono hle,hC₂⟩
  · exact ⟨C₁,hC₁,fun n hn => (hC₂ n hn).mono hle⟩

theorem state_machine_safety_settled : Reachable (trio false) settled ∧
    ∃ C : List Entry, StandsFor recorder (settled.host 3).disk.snapshot C := by
  obtain ⟨_,C,_,hC⟩ := state_machine_safety settled_reachable
  exact ⟨settled_reachable,C,hC 3 (by decide)⟩

end Parallax.Cluster
