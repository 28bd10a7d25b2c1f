import Parallax.Cluster.Origin
import Parallax.Cluster.Safety

/-! Where logs come from in runs with snapshots. What is committed stays on the disks of a majority, so a log that a
snapshot replaces is part of another one; what an event can add to the logs is what it proposes, or a no-op. -/
namespace Parallax.Cluster
open Consensus Consensus.History
variable {S : Setup} {H H' : Hist} {s s' : State S.app} {n : Nat}

private theorem mem_quorum {Q : Finset Nat} (h : S.quorums.IsQuorum Q) {v : Nat} (hv : v ∈ Q) : v ∈ S.peers :=
  List.mem_toFinset.mp (h.1 hv)

theorem quorum_other {Q : Finset Nat} (h : S.quorums.IsQuorum Q) (hs : ¬ S.quorums.Solo) (hn : n ∈ S.peers) :
    ∃ v ∈ Q, v ≠ n := by
  have hpos := List.length_pos_of_mem hn
  have hcard : 1 < Q.card := by
    have hlt : S.peers.length / 2 < Q.card := h.2
    have hne : S.peers.length ≠ 1 := hs
    omega
  exact Finset.exists_mem_ne hcard n

theorem DiskOK.holds {d : Storage} (h : DiskOK S H n d) {e : Entry} (hpos : 0 < e.index)
    (he : (H.log n)[e.index - 1]? = some e) : e.index ≤ d.snapshot.metadata.index ∨ e ∈ d.entries := by
  rw [or_iff_not_imp_left,not_le]
  intro hlt
  rw [h.repr.entries]
  refine List.mem_of_getElem? (i := e.index - 1 - d.offset) ?_
  rw [List.getElem?_drop,Nat.add_sub_cancel' (by unfold Storage.offset; omega)]
  exact he

/-- Whatever any node was ever handed to apply is, in every later state and through crashes that tear what is being
written, on the disks of a majority: in the log, or under a snapshot of the one committed log. -/
theorem surfaced_on_majority (h : Reachable S s) {rd : Ready} (hrd : .drained n rd ∈ s.hist) {e : Entry}
    (he : e ∈ rd.committedEntries) : ∃ (C : List Entry) (Q : Finset Nat), C[e.index - 1]? = some e ∧
      Q ⊆ S.peers.toFinset ∧ S.peers.length / 2 < Q.card ∧ ∀ v ∈ Q,
        StandsFor S.app (s.host v).disk.snapshot C ∧
        (e.index ≤ (s.host v).disk.snapshot.metadata.index ∨ e ∈ (s.host v).disk.entries) := by
  obtain ⟨H,hI⟩ := h.inv
  obtain ⟨t,xs,hc,hxs⟩ := hI.obs _ hrd
  obtain ⟨hpos,hat⟩ := hxs.1 e he
  obtain ⟨Q,hQ,hheld⟩ := hc.held hI.good.inv (by rintro rfl; cases hat)
  have hlog : ∀ v ∈ Q, (H.log v)[e.index - 1]? = some e := by
    intro v hv
    obtain ⟨zs,hzs⟩ := hheld v hv
    rw [← hzs,List.getElem?_append_left (List.getElem?_eq_some_iff.mp hat).1,hat]
  -- One log for what was applied and for all the snapshots.
  obtain ⟨_,C,_,hC⟩ := CommittedBy.gather hI.good.inv
    (P := fun (v : Option Nat) ys => v.elim (xs <+: ys) fun v => StandsFor S.app (s.host v).disk.snapshot ys)
    (fun v _ _ hle hv => by
      cases v with
      | none => exact List.IsPrefix.trans hv hle
      | some v => exact StandsFor.mono hle hv) (none :: S.peers.map some) fun v hv => by
      cases v with
      | none => exact ⟨t,xs,hc,List.prefix_rfl⟩
      | some v =>
        obtain ⟨ys,hys,_,hst⟩ := (hI.hosts v (by simpa using hv)).disk.snap.standsFor
        exact ⟨_,ys,hys,hst⟩
  obtain ⟨zs,hzs⟩ : xs <+: C := hC none (by simp)
  refine ⟨C,Q,?_,hQ.1,hQ.2,fun v hv => ⟨hC (some v) (by simpa using mem_quorum hQ hv),?_⟩⟩
  · rw [← hzs,List.getElem?_append_left (List.getElem?_eq_some_iff.mp hat).1,hat]
  · exact (hI.hosts v (mem_quorum hQ hv)).disk.holds hpos (hlog v hv)

/-- The batch of an observation of this member. -/
def Obs.drain? (n : Nat) : Obs → Option Ready
  | .drained k rd => if k = n then some rd else none
  | .stepped .. => none

private theorem drained_of_drain? {os : List Obs} {rd : Ready} (h : rd ∈ os.filterMap (Obs.drain? n)) :
    .drained n rd ∈ os := by
  obtain ⟨o,ho,hrd⟩ := List.mem_filterMap.mp h
  cases o with
  | stepped => cases hrd
  | drained k rd' =>
    obtain ⟨rfl,rfl⟩ : k = n ∧ rd' = rd := by simpa [Obs.drain?] using hrd
    exact ho

/-- Member 1 applied its first entry; two of the three members have it. -/
theorem surfaced_on_majority_settled : ∃ rd e, .drained 1 rd ∈ settled.hist ∧ e ∈ rd.committedEntries ∧
    ∃ Q : Finset Nat, 1 < Q.card ∧ ∀ v ∈ Q,
      e.index ≤ (settled.host v).disk.snapshot.metadata.index ∨ e ∈ (settled.host v).disk.entries := by
  obtain ⟨rd,hrd,hne⟩ : ∃ rd ∈ settled.hist.filterMap (Obs.drain? 1), rd.committedEntries ≠ [] := by decide +kernel
  obtain ⟨e,he⟩ := List.exists_mem_of_ne_nil _ hne
  have ho := drained_of_drain? hrd
  obtain ⟨_,Q,_,_,hcard,hQ⟩ := surfaced_on_majority settled_reachable ho he
  exact ⟨rd,e,ho,he,Q,hcard,fun v hv => (hQ v hv).2⟩

theorem Inv.restored (h : Inv S s H) (hn : n ∈ S.peers) {i : Input} (hi : s.Admits n i) {r' : Raft} {m : Message}
    (hm : i.message? = some m) (hty : m.type = .installSnapshot) (hf : Frame n H H') (ha : At S H' n r')
    {snap : Snapshot} {u : Unstable} (hu : r'.raftLog.unstable = u.restore snap)
    (hc : r'.raftLog.committed = snap.metadata.index) : ∃ v ∈ S.peers, H'.log n <+: H.log v := by
  have hlog := ha.ok.log
  have hlen : (H'.log n).length = r'.raftLog.committed := by
    rw [← hlog.repr.lastIndex,RaftLog.lastIndex,hu,hc]
    rfl
  have hcom := hlog.committed
  rw [← hlen,List.take_length] at hcom
  by_cases hnil : H'.log n = []
  · exact ⟨n,hn,by rw [hnil]; exact List.nil_prefix⟩
  obtain ⟨Q,hQ,hheld⟩ := hcom.held ha.good.inv hnil
  obtain ⟨hmem,rfl⟩ := hi.mem hm (by simp [hty]) (by simp [hty])
  have hmsg := h.net m hmem
  obtain ⟨v,hv,hne⟩ := quorum_other hQ (not_solo_of_ne hmsg.ne hmsg.sender hn) hn
  exact ⟨v,mem_quorum hQ hv,hf.log v hne ▸ hheld v hv⟩

theorem Batch.log_eq {t : Nat} {m : Message} (h : Batch H t m) (hf : Frame n H H') {r' : Raft} (ha : At S H' n r') {j : Nat}
    {e : Entry} (hj : m.entries[j]? = some e)
    (hu : r'.raftLog.unstable = { offset := m.logIndex + j + 1, entries := m.entries.drop j })
    {l : List Entry} (hl : H'.log n = l ++ m.entries.drop j) :
    H'.log n = (H.lead t).take (m.logIndex + m.entries.length) := by
  have hjlt := (List.getElem?_eq_some_iff.mp hj).1
  have hlen : (H'.log n).length = m.logIndex + m.entries.length := by
    rw [← ha.ok.log.repr.lastIndex,RaftLog.lastIndex,hu]
    simp only [Unstable.maybeLastIndex,List.length_drop]
    rw [if_pos (by omega)]
    simp only
    omega
  have hllen : l.length = m.logIndex + j := by
    have := congrArg List.length hl
    rw [hlen,List.length_append,List.length_drop] at this
    omega
  obtain ⟨x,hx⟩ : ∃ x, m.entries[m.entries.length - 1]? = some x := ⟨_,List.getElem?_eq_getElem (by omega)⟩
  have hend : m.logIndex + (m.entries.length - 1) + 1 = m.logIndex + m.entries.length := by omega
  have hlast : (H'.log n)[m.logIndex + (m.entries.length - 1)]? = some x := by
    rw [hl,List.getElem?_append_right (by omega),List.getElem?_drop,hllen,← hx]
    congr 1
    omega
  have hlead : (H'.lead t)[m.logIndex + (m.entries.length - 1)]? = some x := by
    obtain ⟨zs,hzs⟩ := hf.ext.lead t
    have := h.length_le
    rw [← hzs,List.getElem?_append_left (by omega)]
    exact h.getElem? hx
  have htake := take_eq_of_termAt_eq (ha.good.inv.log_coh n) (ha.good.inv.lead_coh t) hlen.ge
    (h.length_le.trans (hf.ext.lead t).length_le) (by
      rw [← hend,termAt_succ_of_getElem? hlast,termAt_succ_of_getElem? hlead])
  rw [List.take_of_length_le hlen.le,hf.ext.take_lead h.length_le] at htake
  exact htake

theorem Inv.log_input (h : Inv S s H) (hn : n ∈ S.peers) {p : Peer S.app} (hp : (s.host n).vol = some p) {i : Input}
    (hi : s.Admits n i) (hf : Frame n H H') (ha : At S H' n (i.run p.raft)) :
    (∃ v ∈ S.peers, H'.log n <+: H.log v) ∨
    (∃ m ∈ s.net, m.type = .append ∧ H'.log n = (H.lead m.term).take (m.logIndex + m.entries.length)) ∨
    ∃ t es, Raft.LeadBy p.raft i.message? es (i.run p.raft) ∧
      H'.log n = H.log n ++ Raft.stampEntries t (H.log n).length es := by
  obtain ⟨_,_,_,_,heff,_⟩ := h.input hn hp hi
  have hpk := (h.hosts n hn).peer p hp
  have hmsg : ∀ m, i.message? = some m → m.type = .append → m ∈ s.net := fun m hm hty =>
    (hi.mem hm (by simp [hty]) (by simp [hty])).1
  by_cases hsn : (i.run p.raft).raftLog.unstable.snapshot = none
  · have hlog := hpk.log_after hf ha heff.kept hsn
    cases hpk.writes_of_none heff (fun m hm hty => h.net m (hmsg m hm hty)) hsn with
    | none hu =>
      rw [hu,hpk.clean.2,List.append_nil] at hlog
      exact .inl ⟨n,hn,hlog ▸ List.take_prefix _ _⟩
    | lead es hby hu =>
      rw [hu] at hlog
      simp only [Nat.add_sub_cancel,List.take_length] at hlog
      exact .inr (.inr ⟨_,es,hby,hlog⟩)
    | take m hm hty _ hb j e hj _ _ hu =>
      have hl := hlog
      rw [hu] at hl
      exact .inr (.inl ⟨m,hmsg m hm hty,hty,hb.log_eq hf ha hj hu hl⟩)
  cases heff with
  | quiet hq => exact absurd (by rw [hq.unstable]; exact hpk.clean.1) hsn
  | lead es _ _ _ hu => exact absurd (by rw [hu,RaftLog.append_snapshot]; exact hpk.clean.1) hsn
  | take m _ _ _ _ _ _ _ hu => exact absurd (by rw [hu,RaftLog.maybeAppend_snapshot]; exact hpk.clean.1) hsn
  | restore m snap hm hty _ _ hu hcm _ => exact .inl (h.restored hn hi hm hty hf ha hu hcm)

/-- What an event may put behind a log. -/
inductive Adds (e : Event) : List Entry → Prop
  | proposed {n : Nat} {i : Input} {m : Message} (he : e.input? = some (n,i)) (hi : i.message? = some m)
      (ht : m.type = .propose) : Adds e (m.entries.map fun e => { e with type := .normal })
  | noop : Adds e [{ type := .noop }]

/-- Every log, and every part of a leader's log that an append stands for, is one that `Q` allows. -/
structure Traced (Q : List Entry → Prop) (s : State S.app) (H : Hist) : Prop where
  log : ∀ n ∈ S.peers, Q (H.log n)
  net : ∀ m ∈ s.net, m.type = .append → Q ((H.lead m.term).take (m.logIndex + m.entries.length))

theorem Traced.input {Q Q' : List Entry → Prop} (h : Traced Q s H) (hI : Inv S s H) {e : Event} {i : Input}
    (he : e.input? = some (n,i)) (hn : n ∈ S.peers) (hi : s.Admits n i) {p : Peer S.app} (hp : (s.host n).vol = some p)
    (hf : Frame n H H') (hr : At S H' n (i.run p.raft)) (hQ : ∀ l l', l' <+: l → Q l → Q' l')
    (hadd : ∀ t l es, Adds e es → Q l → Q' (l ++ Raft.stampEntries t l.length es)) : Q' (H'.log n) := by
  rcases hI.log_input hn hp hi hf hr with ⟨v,hv,hpre⟩ | ⟨m,hm,hty,heq⟩ | ⟨t,es,hby,heq⟩
  · exact hQ _ _ hpre (h.log v hv)
  · exact heq ▸ hQ _ _ List.prefix_rfl (h.net m hm hty)
  rw [heq]
  refine hadd t _ es ?_ (h.log n hn)
  cases hby with
  | led _ _ _ hes =>
    obtain ⟨m,hm,hty,rfl⟩ := hes
    exact .proposed he hm hty
  | stood _ hes | campaigned hes =>
    rw [hes]
    exact .noop

/-- An event keeps this up if `Q'` allows what it may add. -/
theorem Traced.next {Q Q' : List Entry → Prop} (h : Traced Q s H) (hI : Inv S s H) {e : Event}
    (hc : Change S H H' s e (s.next S e)) (hQ : ∀ l l', l' <+: l → Q l → Q' l')
    (hQ' : ∀ l l', l' <+: l → Q' l → Q' l')
    (hadd : ∀ t l es, Adds e es → Q l → Q' (l ++ Raft.stampEntries t l.length es)) :
    Traced Q' (s.next S e) H' := by
  have hkeep : ∀ l, Q l → Q' l := fun l => hQ l l List.prefix_rfl
  have hsent : ∀ m ∈ s.net, m.type = .append → Q' ((H'.lead m.term).take (m.logIndex + m.entries.length)) := by
    intro m hm hty
    obtain ⟨_,hb,_⟩ := (hI.net m hm).batch hI.good hty
    rw [hc.ext.take_lead hb.length_le]
    exact hkeep _ (h.net m hm hty)
  have hother : ∀ {n}, Frame n H H' → Q' (H'.log n) → ∀ q ∈ S.peers, Q' (H'.log q) := by
    intro n hf hnew q hq
    by_cases hqn : q = n
    · exact hqn ▸ hnew
    · rw [hf.log q hqn]
      exact hkeep _ (h.log q hq)
  cases hc with
  | idle hH hs =>
    rw [hs]
    exact ⟨fun n hn => hH ▸ hkeep _ (h.log n hn),hsent⟩
  | fell _ _ hH hs | started _ _ hH _ _ hs | compacted _ _ hH _ _ hs =>
    rw [hs]
    exact ⟨fun n hn => hH ▸ hkeep _ (h.log n hn),hsent⟩
  | @ran n i p _ _ _ he hn hi hp hf hr _ _ _ _ hs =>
    have hnew := h.input hI he hn hi hp hf hr hQ hadd
    refine ⟨hother hf hnew,fun m hm hty => ?_⟩
    rw [hs] at hm
    rcases List.mem_append.mp hm with hm | hm
    · obtain ⟨hlead,hmsg⟩ := (hI.posts hn hp hi).leader m hm (by simp [Raft.FromLeader,hty])
      rw [hmsg.2.1,← (hr.ok.leads hlead).log]
      exact hQ' _ _ (List.take_prefix _ _) hnew
    · exact hsent m hm hty
  | @died n i p _ _ _ he hn hi hp hf hf₁ hr _ _ _ hs _ _ hpre =>
    rw [hs]
    refine ⟨hother hf ?_,hsent⟩
    -- What the crash leaves of the log is the old one or a part of the new one.
    rcases hpre with heq | hpre
    · rw [heq]
      exact hkeep _ (h.log n hn)
    · exact hQ' _ _ hpre (h.input hI he hn hi hp hf₁ hr hQ hadd)

end Parallax.Cluster
