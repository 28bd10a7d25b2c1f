import Parallax.Cluster.Votes

/-! A follower takes over entries, commit indices and snapshots from the leader of its term. -/
namespace Parallax.Cluster
open Consensus Consensus.History
variable {S : Setup} {H : Hist} {n : Nat} {r : Raft} {m : Message}

/-- A follower handles a message of its own term. -/
structure Follows (S : Setup) (H : Hist) (n : Nat) (r : Raft) (m : Message) : Prop where
  core : At S H n r
  state : r.state = .follower
  msg : MsgOK S H m
  term : m.term = r.term
  dest : m.dest = n

namespace Follows

private theorem ne (h : Follows S H n r m) : m.sender ≠ n := by
  rw [← h.dest]
  exact h.msg.ne.symm

private theorem pos (h : Follows S H n r m) : 0 < r.term := h.term ▸ h.msg.term

private theorem not_solo (h : Follows S H n r m) : ¬ S.quorums.Solo := not_solo_of_ne h.ne h.core.mem h.msg.sender

theorem ack (h : Follows S H n r m) {i : Nat} (hi : i ≤ (H.lead r.term).length)
    (hl : (H.lead r.term).take i <+: H.log n) :
    ∃ H', Frame n H H' ∧ At S H' n r ∧ i ≤ H'.ack n r.term ∧ (Holds H n r.term → Holds H' n r.term) := by
  have ho := h.core.ok
  have hx : Ext H (H.acknowledge n r.term i) := Ext.acknowledge H n r.term i
  have hdur : Durable S (H.acknowledge n r.term i) n r.term r.vote := by
    refine { ho.durable with ack := fun t ht => ?_ }
    by_cases hte : t = r.term
    · exact hte.le
    · rw [acknowledge_ack,if_neg (fun hh => hte hh.2)] at ht
      exact ho.durable.ack t ht
  refine ⟨_,Frame.acknowledge n r.term i,⟨h.core.mem,⟨?_,h.core.good.indexed,h.core.good.member⟩,?_⟩,?_,fun hh => ?_⟩
  · exact h.core.good.inv.acknowledge hi hl fun s hs => ho.durable.no_ballot hs
  · exact
      { id := ho.id, peers := ho.peers, panicked := ho.panicked, log := ho.log.ext hx rfl
        durable := hdur
        leads := fun hs => absurd (h.state ▸ hs) (by simp)
        com := ho.com
        stands := fun hs => absurd (h.state ▸ hs) (by simp)
        prs := ho.prs, reads := ho.reads, lead := ho.lead
        msgs := fun m hm => ⟨(ho.msgs m hm).1.ext hx,(ho.msgs m hm).2⟩
        msgs_term := ho.msgs_term, probes := ho.probes }
  · rw [acknowledge_ack_self]
    exact le_max_right _ _
  rw [Holds,acknowledge_ack_self,acknowledge_lead,acknowledge_log]
  rcases max_choice (H.ack n r.term) i with hm | hm <;> rw [hm]
  · exact hh
  · exact hl

theorem accept (h : Follows S H n r m) (he : H.Elected r.term m.sender) (ys : List Entry)
    (hy : ys = H.log n ∨ (ys <+: H.lead r.term ∧ ∀ p, p <+: H.log n → p <+: H.lead r.term → p <+: ys)) :
    ∃ H', Frame n H H' ∧ H'.log n = ys ∧ H'.lead = H.lead ∧ ∀ l, LogOK S H' n r.term l →
      Follows S H' n { r with raftLog := l } m ∧
      ∀ r', Reaches S H' n { r with raftLog := l } r' → Reaches S H n r r' := by
  have ho := h.core.ok
  rcases hy with rfl | ⟨hy,hkeep⟩
  · refine ⟨H,Frame.refl n H,rfl,rfl,fun l hl => ⟨⟨⟨h.core.mem,h.core.good,?_⟩,h.state,h.msg,h.term,h.dest⟩,
      fun r' hr => hr⟩⟩
    exact { ho with
      log := hl
      com := fun hs => absurd (h.state ▸ hs) (by simp) }
  have hx : Ext H (H.accept n ys) := Ext.accept H n ys
  have hg : Good S (H.accept n ys) :=
    ⟨h.core.good.inv.accept hy hkeep he.mem_terms fun s hs => ho.durable.no_ack hs,
      h.core.good.indexed,h.core.good.member⟩
  have hk : Holds H n r.term → Holds (H.accept n ys) n r.term := by
    intro hh
    rw [Holds,accept_log_self]
    exact hkeep _ hh (List.take_prefix _ _)
  refine ⟨_,Frame.accept n ys,accept_log_self _ _,rfl,fun l hl =>
    ⟨⟨⟨h.core.mem,hg,?_⟩,h.state,h.msg.ext hx,h.term,h.dest⟩,
      fun r' hr => Reaches.after (Frame.accept n ys) le_rfl hk hr⟩⟩
  exact
    { id := ho.id, peers := ho.peers, panicked := ho.panicked, log := hl
      durable := { ho.durable with solo := fun hs => absurd hs h.not_solo }
      leads := fun hs => absurd (h.state ▸ hs) (by simp)
      com := fun hs => absurd (h.state ▸ hs) (by simp)
      stands := fun hs => absurd (h.state ▸ hs) (by simp)
      prs := ho.prs, reads := ho.reads, lead := ho.lead
      msgs := fun m hm => ⟨(ho.msgs m hm).1.ext hx,(ho.msgs m hm).2⟩
      msgs_term := ho.msgs_term, probes := ho.probes }

theorem respond (h : Follows S H n r m) {m' : Message} (hd : m'.dest = m.sender) (hz : m'.term = 0)
    (hs : Raft.Stamped m'.type) (hc : Content S H { m' with sender := n, term := r.term }) :
    At S H n (r.send m') :=
  ⟨h.core.mem,h.core.good,h.core.ok.send_stamped h.core.mem h.pos (by rw [hd]; exact h.ne) hz hs hc⟩

theorem answer (h : Follows S H n r m) {i : Nat} (hi : i ≤ (H.lead r.term).length)
    (hl : (H.lead r.term).take i <+: H.log n) {m' : Message} (hd : m'.dest = m.sender) (hz : m'.term = 0)
    (hs : Raft.Stamped m'.type)
    (hc : ∀ H' : Hist, i ≤ H'.ack n r.term → Content S H' { m' with sender := n, term := r.term }) :
    Reaches S H n r (r.send m') := by
  obtain ⟨H',hf,ha,hack,hk⟩ := h.ack hi hl
  have h' : Follows S H' n r m := { h with core := ha, msg := h.msg.ext hf.ext }
  exact ⟨H',hf,h'.respond hd hz hs (hc H' hack),le_rfl,hk⟩

theorem answer_committed (h : Follows S H n r m) (he : H.Elected r.term m.sender) {m' : Message}
    (hd : m'.dest = m.sender) (hz : m'.term = 0) (hs : Raft.Stamped m'.type)
    (hc : ∀ H' : Hist, r.raftLog.committed ≤ H'.ack n r.term →
      Content S H' { m' with sender := n, term := r.term }) : Reaches S H n r (r.send m') := by
  have hl := h.core.ok.log
  have hp := hl.prefix_lead h.core.good he.mem_terms le_rfl
  refine h.answer (le_length_of_take_isPrefix hl.commit_le hp) ?_ hd hz hs hc
  rw [take_eq_of_take_isPrefix hl.commit_le hp]
  exact List.take_prefix _ _

theorem commitTo (h : Follows S H n r m) {i : Nat} (hi : i ≤ (H.log n).length)
    (hc : H.CommittedBy r.term ((H.log n).take i)) :
    Follows S H n { r with raftLog := r.raftLog.commitTo i } m :=
  { h with core := ⟨h.core.mem,h.core.good,{ h.core.ok with
      log := h.core.ok.log.commitTo hi hc
      com := fun hs => absurd (h.state ▸ hs) (by simp) }⟩ }

theorem handleHeartbeat (h : Follows S H n r m) (ht : m.type = .heartbeat) :
    Reaches S H n r (r.handleHeartbeat m) := by
  have ho := h.core.ok
  have hc := h.msg.content
  simp only [Content,ht] at hc
  rw [h.term,h.dest] at hc
  obtain ⟨he,hack,c,hcl,hcc⟩ := hc
  -- What the leader saw acknowledged and committed is still in this log.
  have hcp : c <+: H.lead r.term := hcc.prefix_lead h.core.good.inv he.mem_terms le_rfl
  have hct : c = (H.lead r.term).take m.commit := hcl ▸ List.prefix_iff_eq_take.mp hcp
  have hcl' : c <+: H.log n := by
    rw [hct]
    apply h.core.good.inv.ack_log n r.term m.commit hack
    intro s hs hlt
    rw [← hct]
    exact hcc.prefix_lead h.core.good.inv hs hlt.le
  have hle : m.commit ≤ (H.log n).length := hcl ▸ hcl'.length_le
  unfold Raft.handleHeartbeat
  rw [ho.log.repr.lastIndex,min_eq_left hle]
  have hf : Follows S H n { r with raftLog := r.raftLog.commitTo m.commit } m := by
    apply h.commitTo hle
    rw [← hcl,← List.prefix_iff_eq_take.mp hcl']
    exact hcc
  refine Reaches.of_ok h.core (At.ok ?_) rfl
  exact hf.respond rfl rfl (by simp [Raft.Stamped]) trivial

end Follows

theorem overwrite_cases {xs L : List Entry} (hx : H.Coherent Entry.term xs) (hL : H.Coherent Entry.term L)
    (hpos : ∀ e ∈ L, 0 < e.term) (ents : List Entry) : ∀ k, k ≤ xs.length → xs.take k = L.take k →
    L.take k ++ ents <+: L → k ≤ L.length →
    L.take (k + ents.length) <+: overwrite xs k ents ∧
    (overwrite xs k ents = xs ∨ (overwrite xs k ents = L.take (k + ents.length) ∧
      ∀ p, p <+: xs → p <+: L → p <+: L.take (k + ents.length))) := by
  induction ents with
  | nil =>
    intro k hk heq _ _
    refine ⟨?_,.inl rfl⟩
    rw [List.length_nil,Nat.add_zero,← heq]
    exact List.take_prefix _ _
  | cons e es ih =>
    intro k hk heq hpre hkL
    have hlen : k < L.length := by
      have := hpre.length_le
      simp only [List.length_append,List.length_take,List.length_cons] at this
      omega
    have hget : L[k]? = some e := by
      obtain ⟨s,hs⟩ := hpre
      rw [← hs,List.append_assoc,List.getElem?_append_right (by simp)]
      simp [min_eq_left hkL]
    have htL : termAt L (k + 1) = e.term := termAt_succ_of_getElem? hget
    have hstep : L.take (k + 1) = L.take k ++ [e] := by
      rw [List.take_add_one,hget]
      rfl
    unfold overwrite
    split
    · rename_i hm
      have hkx : k + 1 ≤ xs.length :=
        RaftLog.Repr.le_length_of_termAt_pos (by rw [hm]; exact (hpos e (List.mem_of_getElem? hget)).ne')
      have := ih (k + 1) hkx (take_eq_of_termAt_eq hx hL hkx hlen (hm.trans htL.symm))
        (by rw [hstep]; simpa using hpre) hlen
      rwa [show k + 1 + es.length = k + (e :: es).length by simp; omega] at this
    rename_i hm
    have hnew : xs.take k ++ e :: es = L.take (k + (e :: es).length) := by
      rw [heq]
      have := List.prefix_iff_eq_take.mp hpre
      rwa [List.length_append,List.length_take,min_eq_left hkL] at this
    rw [hnew]
    refine ⟨List.prefix_rfl,.inr ⟨rfl,fun p hp hpL => ?_⟩⟩
    have hple : p.length ≤ k := by
      by_contra hgt
      apply hm
      rw [termAt_of_isPrefix hp (by omega),← termAt_of_isPrefix hpL (by omega),htL]
    rw [List.prefix_iff_eq_take.mp hpL]
    exact List.take_prefix_take_left (by omega)

/-- A stretch of the leader's log of term `t`, as an append carries it. -/
structure Batch (H : Hist) (t : Nat) (m : Message) : Prop where
  le : m.logIndex ≤ (H.lead t).length
  lead : (H.lead t).take m.logIndex ++ m.entries <+: H.lead t
  indexed : IndexedFrom m.logIndex m.entries
  lead_pos : ∀ e ∈ H.lead t, 0 < e.term
  matched : ∀ xs, H.Coherent Entry.term xs → termAt xs m.logIndex = m.logTerm →
    m.logIndex ≤ xs.length ∧ xs.take m.logIndex = (H.lead t).take m.logIndex

theorem Batch.pos {t : Nat} (h : Batch H t m) : ∀ e ∈ m.entries, 0 < e.term :=
  fun e he => h.lead_pos e (h.lead.subset (List.mem_append_right _ he))

theorem Batch.length_le {t : Nat} (h : Batch H t m) :
    m.logIndex + m.entries.length ≤ (H.lead t).length := by
  have := h.lead.length_le
  rwa [List.length_append,List.length_take,min_eq_left h.le] at this

theorem MsgOK.batch (hm : MsgOK S H m) (hg : Good S H) (ht : m.type = .append) :
    H.Elected m.term m.sender ∧ Batch H m.term m ∧ ∃ c, c.length = m.commit ∧ H.CommittedBy m.term c := by
  have hc := hm.content
  simp only [Content,ht] at hc
  obtain ⟨he,⟨p,hpl,hpt,hpre⟩,hcom⟩ := hc
  have hpL : p <+: H.lead m.term := (List.prefix_append _ _).trans hpre
  have hle : m.logIndex ≤ (H.lead m.term).length := hpl ▸ hpL.length_le
  have hp : p = (H.lead m.term).take m.logIndex := hpl ▸ List.prefix_iff_eq_take.mp hpL
  have hlt : m.logTerm = termAt (H.lead m.term) m.logIndex := by
    rw [hpt,hp,List.length_take,min_eq_left hle,termAt_take le_rfl]
  refine ⟨he,⟨hle,hp ▸ hpre,?_,fun e he => (hg.inv.lead_coh m.term).pos hg.inv he,?_⟩,hcom⟩
  · intro i e hi
    have : (p ++ m.entries)[p.length + i]? = some e := by
      rw [List.getElem?_append_right (by omega)]
      simpa using hi
    rw [((hg.indexed m.term).of_isPrefix hpre) _ e this,hpl]
    omega
  intro xs hx hmt
  have hil : m.logIndex ≤ xs.length := by
    by_cases hz : m.logIndex = 0
    · omega
    apply RaftLog.Repr.le_length_of_termAt_pos
    rw [hmt,hlt]
    exact (hg.termAt_pos (hg.inv.lead_coh m.term) (Nat.pos_of_ne_zero hz) hle).ne'
  exact ⟨hil,take_eq_of_termAt_eq hx (hg.inv.lead_coh m.term) hil hle (hmt.trans hlt)⟩

theorem Batch.overwrites {t : Nat} (h : Batch H t m) (hg : Good S H) (hm : termAt (H.log n) m.logIndex = m.logTerm)
    {ents : List Entry} (he : ents <+: m.entries) :
    (H.lead t).take (m.logIndex + ents.length) <+: overwrite (H.log n) m.logIndex ents ∧
    (overwrite (H.log n) m.logIndex ents = H.log n ∨ (overwrite (H.log n) m.logIndex ents <+: H.lead t ∧
      ∀ p, p <+: H.log n → p <+: H.lead t → p <+: overwrite (H.log n) m.logIndex ents)) := by
  obtain ⟨hil,hmatch⟩ := h.matched _ (hg.inv.log_coh n) hm
  have hpre : (H.lead t).take m.logIndex ++ ents <+: H.lead t :=
    ((List.prefix_append_right_inj _).mpr he).trans h.lead
  obtain ⟨hnew,hor⟩ := overwrite_cases (hg.inv.log_coh n) (hg.inv.lead_coh t) h.lead_pos ents
    m.logIndex hil hmatch hpre h.le
  refine ⟨hnew,hor.imp_right ?_⟩
  rintro ⟨hx,hkeep⟩
  rw [hx]
  exact ⟨List.take_prefix _ _,hkeep⟩

theorem LogOK.overwritten {t k commit : Nat} {l l' : RaftLog} {H₁ : Hist} {c : List Entry} (h : LogOK S H n t l)
    (hg : Good S H) (ht : t ∈ terms H.elections) (hx : Ext H H₁) (hk : k ≤ (H.lead t).length)
    (hnew : (H.lead t).take k <+: H₁.log n) (hkeep : (H.log n).take l.committed <+: H₁.log n)
    (hcl : c.length = commit) (hc : H.CommittedBy t c) (hrep : l'.Repr (H₁.log n)) (hpan : l'.panicked = l.panicked)
    (hst : l'.storage = l.storage) (hsn : l'.unstable.snapshot = l.unstable.snapshot)
    (happ : l'.applied = l.applied) (hcom : l'.committed = max l.committed (min commit k)) :
    LogOK S H₁ n t l' := by
  have hbl : l'.base = l.base := by
    unfold RaftLog.base
    rw [hsn,hst]
  have hcp : c <+: H.lead t := hc.prefix_lead hg.inv ht le_rfl
  refine ⟨hpan.trans h.panicked,hrep,?_,?_,?_,?_,?_,?_⟩
  · rw [hbl,happ]
    exact h.base_le
  · rw [happ,hcom]
    exact h.applied_le.trans (le_max_left _ _)
  · rw [hcom]
    exact max_le (le_length_of_take_isPrefix h.commit_le hkeep)
      ((min_le_right _ _).trans (le_length_of_take_isPrefix hk hnew))
  · rw [hcom]
    rcases max_choice l.committed (min commit k) with hmx | hmx <;> rw [hmx]
    · rw [take_eq_of_take_isPrefix h.commit_le hkeep]
      exact h.committed.ext hx
    -- The message commits the part `c` of the leader's log, cut at the end of its entries.
    have hpre : (H.lead t).take (min commit k) <+: H₁.log n :=
      (List.take_prefix_take_left (min_le_right _ _)).trans hnew
    rw [take_eq_of_take_isPrefix ((min_le_right _ _).trans hk) hpre]
    refine (hc.ext hx).of_isPrefix ?_
    rw [List.prefix_iff_eq_take.mp hcp,hcl]
    exact List.take_prefix_take_left (min_le_left _ _)
  · rw [hst]
    exact h.snap.ext hx
  intro snap hs
  rw [hsn] at hs
  rw [hst]
  exact ⟨(h.pending snap hs).1.ext hx,(h.pending snap hs).2⟩

theorem LogOK.restored {t : Nat} {l : RaftLog} {H₁ : Hist} {snap : Snapshot} {p : List Entry} (h : LogOK S H n t l)
    (hclean : l.Clean) (hx : Ext H H₁) (hlog : H₁.log n = p) (hidx : Indexed p)
    (hlt : l.committed < snap.metadata.index) (hne : termAt (H.log n) snap.metadata.index ≠ snap.metadata.term)
    (hpl : p.length = snap.metadata.index) (hpc : H.CommittedBy t p) (hs : SnapOK S H t snap)
    (hpt : snap.metadata.term = termAt p snap.metadata.index) : LogOK S H₁ n t (l.restore snap) := by
  have hoff : l.storage.offset < snap.metadata.index := by
    have hb : l.base = l.storage.snapshot.metadata := by
      unfold RaftLog.base
      rw [hclean.1]
    have hbase := h.base_le.trans h.applied_le
    rw [hb] at hbase
    unfold Storage.offset
    omega
  refine ⟨h.panicked,by rw [hlog]; exact RaftLog.Repr.restore _ hpl hpt hidx,?_,?_,?_,?_,h.snap.ext hx,?_⟩
  · change snap.metadata.index ≤ (if l.applied < snap.metadata.index then _ else _)
    split_ifs <;> omega
  · change (if l.applied < snap.metadata.index then _ else _) ≤ snap.metadata.index
    have := h.applied_le
    split_ifs <;> omega
  · rw [hlog,hpl]
    exact le_rfl
  · rw [hlog]
    change H₁.CommittedBy t (p.take snap.metadata.index)
    rw [← hpl,List.take_length]
    exact hpc.ext hx
  intro snap' hs'
  obtain rfl : snap = snap' := by simpa [RaftLog.restore,Unstable.restore] using hs'
  exact ⟨hs.ext hx,(h.repr.storage hclean).applySnapshot_empties hoff fun he => hne he.2⟩

namespace Follows

theorem handleAppend_accepted (h : Follows S H n r m) (he : H.Elected r.term m.sender) (hb : Batch H r.term m)
    {c : List Entry} (hcl : c.length = m.commit) (hc : H.CommittedBy r.term c)
    (hm : termAt (H.log n) m.logIndex = m.logTerm) {l : RaftLog}
    (hrep : l.Repr (overwrite (H.log n) m.logIndex m.entries)) (hpan : l.panicked = r.raftLog.panicked)
    (hst : l.storage = r.raftLog.storage) (hsn : l.unstable.snapshot = r.raftLog.unstable.snapshot)
    (happ : l.applied = r.raftLog.applied)
    (hcom : l.committed = max r.raftLog.committed (min m.commit (m.logIndex + m.entries.length))) :
    Reaches S H n r (Raft.send { r with raftLog := l }
      { type := .appendResp, dest := m.sender, logIndex := m.logIndex + m.entries.length }) := by
  have hg := h.core.good
  have hlog := h.core.ok.log
  obtain ⟨hnew,hor⟩ := hb.overwrites hg hm List.prefix_rfl
  have hkeep : (H.log n).take r.raftLog.committed <+: overwrite (H.log n) m.logIndex m.entries := by
    rcases hor with hx | ⟨_,hkeep⟩
    · rw [hx]
      exact List.take_prefix _ _
    · exact hkeep _ (List.take_prefix _ _) (hlog.prefix_lead hg he.mem_terms le_rfl)
  obtain ⟨H₁,hf,hlogn,hlead,hok⟩ := h.accept he _ hor
  rw [← hlogn] at hrep hnew hkeep
  obtain ⟨h₁,hr⟩ := hok l (hlog.overwritten hg he.mem_terms hf.ext hb.length_le hnew hkeep hcl hc hrep hpan hst hsn happ
    hcom)
  apply hr
  refine h₁.answer (i := m.logIndex + m.entries.length) ?_ ?_ rfl rfl (by simp [Raft.Stamped]) fun H' hack =>
    ⟨fun _ => hack,fun hrej => ?_⟩
  · rw [hlead]
    exact hb.length_le
  · rw [hlead]
    exact hnew
  · cases hrej

theorem handleAppend (h : Follows S H n r m) (ht : m.type = .append) :
    Reaches S H n r (r.handleAppend m) := by
  have hg := h.core.good
  have hlog := h.core.ok.log
  obtain ⟨he,hb,c,hcl,hcc⟩ := h.msg.batch hg ht
  rw [h.term] at he hb hcc
  unfold Raft.handleAppend
  split
  · -- A stale append: answer with the commit index.
    refine h.answer_committed he rfl rfl (by simp [Raft.Stamped]) fun H' hack => ⟨fun _ => hack,fun hr => ?_⟩
    cases hr
  rename_i hge
  have hbase : r.raftLog.base.index ≤ m.logIndex := by
    have := hlog.base_le
    have := hlog.applied_le
    omega
  rcases hlog.repr.maybeAppend m.commit hbase (by omega) hb.indexed hb.pos
    (fun hm => (hb.matched _ (hg.inv.log_coh n) hm).1) with
    ⟨_,hrej⟩ | ⟨hm,l',hacc,hrep,_,hpan,hst,hsnap,happ,hcom⟩
  · rw [hrej]
    refine Reaches.of_ok h.core (At.ok ?_) rfl
    refine h.respond rfl rfl (by simp [Raft.Stamped]) ⟨fun hr => ?_,fun _ => ?_⟩
    · cases hr
    · exact (Raft.findConflictByTerm_le _ _ _).trans ((min_le_left _ _).trans hb.le)
  · rw [hacc]
    exact h.handleAppend_accepted he hb hcl hcc hm hrep hpan hst hsnap happ hcom

theorem handleSnapshot (h : Follows S H n r m) (ht : m.type = .installSnapshot)
    (hclean : r.raftLog.Clean) : Reaches S H n r (r.handleSnapshot m) := by
  have hg := h.core.good
  have hlog := h.core.ok.log
  have hc := h.msg.content
  simp only [Content,ht] at hc
  rw [h.term] at hc
  obtain ⟨he,snap,hsnap,hpos,p,hpl,hpc,hpt,hdata⟩ := hc
  have hpL : p <+: H.lead r.term := hpc.prefix_lead hg.inv he.mem_terms le_rfl
  have hptake : p = (H.lead r.term).take snap.metadata.index := hpl ▸ List.prefix_iff_eq_take.mp hpL
  have hpt' : snap.metadata.term = termAt p snap.metadata.index := by rw [hpt,hpl]
  have hbase : r.raftLog.base.index ≤ r.raftLog.committed := hlog.base_le.trans hlog.applied_le
  unfold Raft.handleSnapshot
  simp only [hsnap]
  unfold Raft.restore
  by_cases hold : snap.metadata.index ≤ r.raftLog.committed
  · rw [if_pos hold]
    exact h.answer_committed he rfl rfl (by simp [Raft.Stamped]) fun H' hack => hack
  rw [if_neg hold,hlog.repr.matchTerm_eq (by omega)]
  by_cases hm : termAt (H.log n) snap.metadata.index = snap.metadata.term
  · -- The log holds the snapshot's last entry, hence all of its prefix.
    simp only [hm,beq_self_eq_true,if_true]
    have hle : snap.metadata.index ≤ (H.log n).length := by
      apply RaftLog.Repr.le_length_of_termAt_pos
      rw [hm,hpt]
      exact (hg.termAt_pos (hg.committed_coherent hpc) (hpl ▸ hpos) le_rfl).ne'
    have htake : (H.log n).take snap.metadata.index = p := by
      have := take_eq_of_termAt_eq (hg.inv.log_coh n) (hg.committed_coherent hpc) hle hpl.symm.le
        (by rw [hm,hpt,hpl])
      rw [this,← hpl,List.take_length]
    have hf := h.commitTo hle (by rw [htake]; exact hpc)
    exact Reaches.after (Frame.refl n H) le_rfl (fun hh => hh)
      (hf.answer_committed he rfl rfl (by simp [Raft.Stamped]) fun H' hack => hack)
  have hm' : (termAt (H.log n) snap.metadata.index == snap.metadata.term) = false := by simpa using hm
  simp only [hm']
  -- The log is replaced by the snapshot's prefix.
  have hkeep : ∀ q, q <+: H.log n → q <+: H.lead r.term → q <+: p := by
    intro q hq hqL
    have hqle : q.length ≤ snap.metadata.index := by
      by_contra hgt
      apply hm
      rw [termAt_of_isPrefix hq (by omega),← termAt_of_isPrefix hqL (by omega),hpt',hptake,termAt_take le_rfl]
    rw [List.prefix_iff_eq_take.mp hqL,hptake]
    exact List.take_prefix_take_left hqle
  obtain ⟨H₁,hf,hlogn,hlead,hok⟩ := h.accept he p (.inr ⟨hpL,hkeep⟩)
  have hL₁ := hlog.restored hclean hf.ext hlogn ((hg.indexed r.term).of_isPrefix hpL) (Nat.lt_of_not_le hold) hm hpl hpc
    ⟨p,hpl,hpc,hpt,hdata⟩ hpt'
  obtain ⟨h₁,hr⟩ := hok _ hL₁
  have hlast : (r.raftLog.restore snap).lastIndex = snap.metadata.index := by
    rw [hL₁.repr.lastIndex,hlogn,hpl]
  apply hr
  refine h₁.answer (i := snap.metadata.index) ?_ ?_ rfl rfl (by simp [Raft.Stamped]) fun H' hack => ?_
  · rw [hlead,← hpl]
    exact hpL.length_le
  · rw [hlead,hlogn]
    exact hptake ▸ List.prefix_rfl
  change (r.raftLog.restore snap).lastIndex ≤ _
  rw [hlast]
  exact hack

theorem heard (h : Follows S H n r m) (hclean : r.raftLog.Clean) {r' : Raft} (hr : r.Heard m r') :
    Reaches S H n r r' := by
  cases hr with
  | append ht => exact h.handleAppend ht
  | heartbeat ht => exact h.handleHeartbeat ht
  | snapshot ht => exact h.handleSnapshot ht hclean

end Follows
end Parallax.Cluster
