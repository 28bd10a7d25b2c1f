import Parallax.Cluster.Invariant

/-! What an acknowledgement binds a follower to: in a run without snapshots its log keeps the acknowledged
entries until a leader of a later term brings others in their place. -/
namespace Parallax.Cluster
open Consensus Consensus.History
variable {S : Setup} {H H' : Hist} {s s' : State S.app} {n t : Nat} {A L : List Entry} {D D' : Message → Prop}

theorem Inv.acked (h : Inv S s H) (hn : n ∈ S.peers) {p : Peer S.app} (hp : (s.host n).vol = some p) {i : Input}
    (hi : s.Admits n i) (hf : Frame n H H') (ha : At S H' n (i.run p.raft)) {m : Message}
    (hm : m ∈ (i.run p.raft).msgs) (hack : Raft.Acks m) :
    m.term = (i.run p.raft).term ∧ m.logIndex ≤ (H'.log n).length ∧
      (H'.log n).take m.logIndex <+: H'.lead m.term := by
  obtain ⟨m₀,hi₀,ht₀,hterm₀,hterm,hcase⟩ := (h.posts hn hp hi).acks m hm hack
  have hnet := h.net m₀ (hi.mem hi₀ (by simp [ht₀]) (by simp [ht₀])).1
  obtain ⟨he,_,_⟩ := (hnet.ext hf.ext).batch ha.good ht₀
  have hlog := ha.ok.log
  refine ⟨hterm,?_⟩
  rw [hterm,← hterm₀]
  rcases hcase with ⟨hsame,hidx⟩ | ⟨hc,happ⟩
  · rw [hidx,← hsame]
    exact ⟨hlog.commit_le,hlog.prefix_lead ha.good he.mem_terms hterm₀.symm.le⟩
  obtain ⟨_,hb,_⟩ := hnet.batch h.good ht₀
  have hlog₀ := ((h.hosts n hn).peer p hp).core.ok.log
  have hcoh := h.good.inv.log_coh n
  have hbase : p.raft.raftLog.base.index ≤ m₀.logIndex := (hlog₀.base_le.trans hlog₀.applied_le).trans hc
  rcases hlog₀.repr.maybeAppend m₀.commit hbase hc hb.indexed hb.pos (fun hmt => (hb.matched _ hcoh hmt).1) with
    ⟨_,hno⟩ | ⟨hmt,l,hl,hrep,hlen,_,hst,hsn,_⟩
  · exact absurd ((Prod.mk.inj (happ.symm.trans hno)).2) (by simp)
  rw [happ] at hl
  obtain ⟨hl₁,hl₂⟩ := Prod.mk.inj hl
  rw [← hl₁] at hrep hst hsn
  rw [Option.some.inj hl₂]
  obtain ⟨hnew,_⟩ := hb.overwrites h.good hmt List.prefix_rfl
  -- Both lists describe the log after the step, so they agree on the term at the new index.
  have hlen' : (H'.log n).length = (overwrite (H.log n) m₀.logIndex m₀.entries).length := by
    rw [← hlog.repr.lastIndex,hrep.lastIndex]
  have hbase' : (i.run p.raft).raftLog.base.index ≤ m₀.logIndex + m₀.entries.length := by
    rw [RaftLog.base,hsn,hst]
    exact hbase.trans (Nat.le_add_right _ _)
  have hterms : termAt (H'.log n) (m₀.logIndex + m₀.entries.length) =
      termAt (H'.lead m₀.term) (m₀.logIndex + m₀.entries.length) := by
    have h₁ := hlog.repr.term_eq hbase'
    rw [hrep.term_eq hbase'] at h₁
    rw [← Except.ok.inj h₁,termAt_of_isPrefix (hf.ext.lead _) hb.length_le]
    have h₂ := termAt_of_isPrefix hnew (by rw [List.length_take,min_eq_left hb.length_le])
    rw [h₂,termAt_take le_rfl]
  refine ⟨hlen'.symm ▸ hlen,?_⟩
  rw [take_eq_of_termAt_eq (ha.good.inv.log_coh n) (ha.good.inv.lead_coh _) (hlen'.symm ▸ hlen)
    (hb.length_le.trans (hf.ext.lead _).length_le) hterms]
  exact List.take_prefix _ _

/-- An append of term `t` or later among the messages `D` brings the entry `e`. -/
def Brought (D : Message → Prop) (t : Nat) (e : Entry) : Prop := ∃ m, D m ∧ m.type = .append ∧ t ≤ m.term ∧ e ∈ m.entries

theorem Brought.mono {e : Entry} (h : Brought D t e) (hD : ∀ m, D m → D' m) : Brought D' t e := by
  obtain ⟨m,hm,h⟩ := h
  exact ⟨m,hD m hm,h⟩

/-- `L` is `A` up to entry `k`, for which a leader after term `t` brought another. What stands there now was brought so,
or is the one of `A` again. -/
structure Replaced (D : Message → Prop) (t : Nat) (A L : List Entry) (k : Nat) : Prop where
  lt : k < A.length
  before : L.take k = A.take k
  other : ∃ e, Brought D (t + 1) e ∧ e.index = k + 1 ∧ A[k]? ≠ some e
  now : ∃ e, L[k]? = some e ∧ (A[k]? = some e ∨ Brought D (t + 1) e)

theorem Replaced.congr {L' : List Entry} {k c : Nat} (h : Replaced D t A L k) (hD : ∀ m, D m → D' m) (hc : k < c)
    (heq : L'.take c = L.take c) : Replaced D' t A L' k := by
  obtain ⟨e,he,hother⟩ := h.other
  obtain ⟨e',he',hnow⟩ := h.now
  refine ⟨h.lt,?_,⟨e,he.mono hD,hother⟩,e',?_,hnow.imp_right (·.mono hD)⟩
  · rw [← h.before,← min_eq_left hc.le,← List.take_take,heq,List.take_take]
  · rw [← List.getElem?_take_of_lt hc,heq,List.getElem?_take_of_lt hc,he']

/-- `A`, acknowledged by node `n` in term `t`, is still in its log, or was replaced by what the messages `D` brought. -/
structure Upheld (s : State S.app) (H : Hist) (n t : Nat) (A : List Entry) (D : Message → Prop) : Prop where
  lead : A <+: H.lead t
  term : t ≤ (s.host n).disk.hardState.term
  log : A <+: H.log n ∨ ∃ k, Replaced D t A (H.log n) k

/-- What an input of `r` that brings no snapshot leaves to persist. -/
inductive Writes (H : Hist) (n : Nat) (r : Raft) (i : Option Message) (r' : Raft) : Prop
  | none (hu : r'.raftLog.unstable = r.raftLog.unstable)
  | lead (es : List Entry) (hby : Raft.LeadBy r i es r') (hu : r'.raftLog.unstable =
      { offset := (H.log n).length + 1, entries := Raft.stampEntries r'.term (H.log n).length es })
  /-- Entry `j` of the append is the first that the log does not have. -/
  | take (m : Message) (hi : i = some m) (ht : m.type = .append) (hle : r.term ≤ m.term) (hb : Batch H m.term m)
      (j : Nat) (e : Entry) (hj : m.entries[j]? = some e) (hne : termAt (H.log n) (m.logIndex + 1 + j) ≠ e.term)
      (hlen : m.logIndex + j ≤ (H.log n).length)
      (hu : r'.raftLog.unstable = { offset := m.logIndex + j + 1, entries := m.entries.drop j })

theorem PeerOK.writes_of_none {d : Storage} {p : Peer S.app} (h : PeerOK S H n d p) {r' : Raft} {i : Option Message}
    (he : Raft.LogEffect p.raft i r') (hi : ∀ m, i = some m → m.type = .append → MsgOK S H m)
    (hno : r'.raftLog.unstable.snapshot = none) : Writes H n p.raft i r' := by
  have hlog := h.core.ok.log
  have hg := h.core.good
  cases he with
  | quiet hq => exact .none hq.unstable
  | restore m snap hm hty _ _ hu =>
    rw [hu] at hno
    cases hno
  | lead es hk hs hne hu ha hby =>
    have hidx := stampEntries_indexed r'.term (H.log n).length es
    rw [hlog.repr.lastIndex,hlog.repr.append_clean h.clean le_rfl hidx (by
      intro hnil
      rw [← List.length_eq_zero_iff,stampEntries_length,List.length_eq_zero_iff] at hnil
      exact hne hnil)] at hu
    exact .lead es hby hu
  | take m him hk hty hterm hle hc hm hu =>
    obtain ⟨_,hb,_⟩ := (hi m him hty).batch hg hty
    have hbase : p.raft.raftLog.base.index ≤ m.logIndex := (hlog.base_le.trans hlog.applied_le).trans hc
    have hmt : termAt (H.log n) m.logIndex = m.logTerm := by
      rw [hlog.repr.matchTerm_eq hbase] at hm
      simpa using hm
    rcases hlog.repr.maybeAppend_clean h.clean m.commit hbase hc hb.indexed hb.pos
      (hb.matched _ (hg.inv.log_coh n) hmt).1 hm with hx | ⟨j,e,hje,hne,_,hlen,hx⟩
    · exact .none (hu.trans hx)
    · exact .take m him hty hle hb j e hje hne hlen (hu.trans hx)

theorem PeerOK.writes {d : Storage} {p : Peer S.app} (h : PeerOK S H n d p) {r' : Raft} {i : Option Message}
    (he : Raft.LogEffect p.raft i r') (hi : ∀ m, i = some m → m.type = .append → MsgOK S H m)
    (hno : ∀ m, i = some m → m.type ≠ .installSnapshot) : Writes H n p.raft i r' :=
  h.writes_of_none he hi (he.no_snapshot h.clean.1 hno)

theorem Batch.getElem? {m : Message} (h : Batch H t m) {j : Nat} {e : Entry} (he : m.entries[j]? = some e) :
    (H.lead t)[m.logIndex + j]? = some e := by
  obtain ⟨zs,hzs⟩ := h.lead
  have hj := (List.getElem?_eq_some_iff.mp he).1
  rw [← hzs,List.getElem?_append_left (by rw [List.length_append,List.length_take,min_eq_left h.le]; omega),
    List.getElem?_append_right (by rw [List.length_take]; omega),List.length_take,min_eq_left h.le,← he]
  congr 1
  omega

theorem Batch.acked_or_later {m : Message} (h : Batch H m.term m) (hlead : A <+: H.lead t) (ht : t ≤ m.term) {j : Nat}
    {e : Entry} (he : m.entries[j]? = some e) (hj : m.logIndex + j < A.length) : A[m.logIndex + j]? = some e ∨ t < m.term := by
  rcases ht.eq_or_lt with heq | hlt
  · rw [← heq] at h
    obtain ⟨zs,hzs⟩ := hlead
    exact .inl (by rw [← h.getElem? he,← hzs,List.getElem?_append_left hj])
  · exact .inr hlt

theorem Batch.replaces {m : Message} (h : Batch H m.term m) (hty : m.type = .append) (hlead : A <+: H.lead t)
    (ht : t ≤ m.term) (hm : D m) {j : Nat} {e : Entry} (he : m.entries[j]? = some e)
    (hne : termAt (H.log n) (m.logIndex + 1 + j) ≠ e.term) (hj : m.logIndex + j < A.length)
    (htake : (H.log n).take (m.logIndex + j + 1) = A.take (m.logIndex + j + 1)) {L : List Entry}
    (hL : L.take (m.logIndex + j) = (H.log n).take (m.logIndex + j)) (hLe : L[m.logIndex + j]? = some e) :
    Replaced D t A L (m.logIndex + j) := by
  have hat : (H.log n)[m.logIndex + j]? = A[m.logIndex + j]? := by
    rw [← List.getElem?_take_of_lt (Nat.lt_succ_self _),htake,List.getElem?_take_of_lt (Nat.lt_succ_self _)]
  have hother : A[m.logIndex + j]? ≠ some e := fun heq =>
    hne (by rw [Nat.add_right_comm]; exact termAt_succ_of_getElem? (hat.trans heq))
  have hlt : t < m.term := (h.acked_or_later hlead ht he hj).resolve_left hother
  have hb : Brought D (t + 1) e := ⟨m,hm,hty,hlt,List.mem_of_getElem? he⟩
  have hidx : e.index = m.logIndex + 1 + j := h.indexed j e he
  refine ⟨hj,?_,⟨e,hb,by omega,hother⟩,e,hLe,.inr hb⟩
  rw [hL,← min_eq_left (Nat.le_succ (m.logIndex + j)),← List.take_take,htake,List.take_take]

theorem PeerOK.upholds {d : Storage} {p : Peer S.app} (h : PeerOK S H n d p) {r' : Raft} {i : Option Message}
    (hw : Writes H n p.raft i r') (ht : t ≤ p.raft.term) (hlead : A <+: H.lead t) (hD : ∀ m, D m → D' m)
    (hi : ∀ m, i = some m → m.type = .append → D' m) (hu : A <+: H.log n ∨ ∃ k, Replaced D t A (H.log n) k)
    {b : Nat} (hb : b = 0 → r'.raftLog.unstable.entries = []) {L : List Entry}
    (hL : L = (H.log n).take (r'.raftLog.unstable.offset - 1) ++ r'.raftLog.unstable.entries.take b) :
    A <+: L ∨ ∃ k, Replaced D' t A L k := by
  have hgrown : ∀ xs, L = H.log n ++ xs → A <+: L ∨ ∃ k, Replaced D' t A L k := by
    rintro xs rfl
    refine hu.imp (·.trans (List.prefix_append _ _)) fun ⟨k,hk⟩ => ⟨k,hk.congr (c := (H.log n).length) hD ?_ (by simp)⟩
    obtain ⟨e,he,_⟩ := hk.now
    exact (List.getElem?_eq_some_iff.mp he).1
  cases hw with
  | none hu' =>
    obtain ⟨_,hsplit,_⟩ := h.core.ok.log.repr.split
    rw [h.clean.2,List.length_nil] at hsplit
    refine hgrown (p.raft.raftLog.unstable.entries.take b) ?_
    rw [hL,hu',List.take_of_length_le (by omega)]
  | lead es hby hu' =>
    refine hgrown (r'.raftLog.unstable.entries.take b) ?_
    rw [hL,List.take_of_length_le (by rw [hu']; simp)]
  | take m him hty hle hbat j e hje hne hlen hu' =>
    have hjlt := (List.getElem?_eq_some_iff.mp hje).1
    have hcut : ((H.log n).take (m.logIndex + j)).length = m.logIndex + j := by rw [List.length_take,min_eq_left hlen]
    rw [hu'] at hL hb
    simp only [Nat.add_sub_cancel] at hL
    have hpos : 0 < b := Nat.pos_of_ne_zero fun h0 => by
      have := congrArg List.length (hb h0)
      simp only [List.length_drop,List.length_nil] at this
      omega
    have htake : L.take (m.logIndex + j) = (H.log n).take (m.logIndex + j) := by
      rw [hL]
      exact List.take_left' hcut
    have hLe : L[m.logIndex + j]? = some e := by
      rw [hL,List.getElem?_append_right hcut.le,hcut,Nat.sub_self,List.getElem?_take_of_lt hpos,List.getElem?_drop,
        Nat.add_zero,hje]
    have hnew := fun hj htk => hbat.replaces hty hlead (ht.trans hle) (hi m him hty) hje hne hj htk htake hLe
    rcases hu with hA | ⟨k,hk⟩
    · by_cases hc : A.length ≤ m.logIndex + j
      · refine .inl ((List.prefix_take_iff.mpr ⟨hA,hc⟩).trans ?_)
        rw [← htake]
        exact List.take_prefix _ _
      refine .inr ⟨_,hnew (not_le.mp hc) ?_⟩
      obtain ⟨zs,hzs⟩ := hA
      rw [← hzs,List.take_append_of_le_length (by omega)]
    refine .inr ?_
    rcases lt_trichotomy k (m.logIndex + j) with hlt | rfl | hgt
    · exact ⟨k,hk.congr hD hlt htake⟩
    · obtain ⟨e',he',hother⟩ := hk.other
      refine ⟨_,hk.lt,htake.trans hk.before,⟨e',he'.mono hD,hother⟩,e,hLe,?_⟩
      exact (hbat.acked_or_later hlead (ht.trans hle) hje hk.lt).imp_right fun hlt =>
        ⟨m,hi m him hty,hty,hlt,List.mem_of_getElem? hje⟩
    · refine ⟨_,hnew (hgt.trans hk.lt) ?_⟩
      rw [← min_eq_left (show m.logIndex + j + 1 ≤ k from hgt),← List.take_take,hk.before,List.take_take]

theorem State.term_setHost {q : Nat} {hst : Host S.app}
    (ht : (s.host q).disk.hardState.term ≤ hst.disk.hardState.term) (n : Nat) :
    (s.host n).disk.hardState.term ≤ ((s.setHost q hst).host n).disk.hardState.term := by
  by_cases hnq : n = q
  · subst hnq
    simpa [State.setHost] using ht
  · simp [State.setHost,hnq]

/-- The term on a disk never goes back. -/
theorem Change.term_le {e : Event} (hc : Change S H H' s e s') (h : Inv S s H) (n : Nat) :
    (s.host n).disk.hardState.term ≤ (s'.host n).disk.hardState.term := by
  cases hc with
  | idle _ hs => rw [hs]
  | ran he hq hi hp hf hr hp' hdr hd hos hs hk =>
    obtain ⟨_,_,_,hle,_,_⟩ := h.input hq hp hi
    rw [hs]
    exact State.term_setHost ((((h.hosts _ hq).peer _ hp).disk.1.le.trans hle).trans hd.ge) n
  | fell _ _ _ hs | started _ _ _ _ _ hs =>
    rw [hs]
    exact State.term_setHost (by exact le_rfl) n
  | died he hq hi hp hf hf₁ hr hlo hhi hos hs hk hlog =>
    rw [hs]
    exact State.term_setHost hlo n
  | compacted _ _ _ hd _ hs =>
    rw [hs]
    exact State.term_setHost (hd ▸ le_rfl) n

theorem Upheld.next (hu : Upheld s H n t A D) (h : Inv S s H) {e : Event} (hc : Change S H H' s e s')
    (hno : ∀ q i m, e.input? = some (q,i) → i.message? = some m → m.type ≠ .installSnapshot) (hD : ∀ m, D m → D' m)
    (hD' : ∀ m, e.input? = some (n,.step m) → m.type = .append → D' m) : Upheld s' H' n t A D' := by
  refine ⟨hu.lead.trans (hc.ext.lead t),hu.term.trans (hc.term_le h n),?_⟩
  have hkept : H'.log n = H.log n → A <+: H'.log n ∨ ∃ k, Replaced D' t A (H'.log n) k := by
    intro heq
    rw [heq]
    exact hu.log.imp_right fun ⟨k,hk⟩ => ⟨k,hk.congr hD (Nat.lt_succ_self k) rfl⟩
  have hwrites : ∀ {i p}, e.input? = some (n,i) → n ∈ S.peers → s.Admits n i → (s.host n).vol = some p →
      Writes H n p.raft i.message? (i.run p.raft) ∧ (i.run p.raft).raftLog.unstable.snapshot = none ∧
        t ≤ p.raft.term ∧ ∀ m, i.message? = some m → m.type = .append → D' m := by
    intro i p he hq hi hp
    obtain ⟨_,_,_,_,heff,_⟩ := h.input hq hp hi
    have hpk := (h.hosts n hq).peer p hp
    refine ⟨hpk.writes heff (fun m hm hty => h.net m (hi.mem hm (by simp [hty]) (by simp [hty])).1) (hno n i · he),
      heff.no_snapshot hpk.clean.1 (hno n i · he),hu.term.trans hpk.disk.1.le,fun m hm hty => hD' m ?_ hty⟩
    rw [he,Input.eq_step hm]
  cases hc with
  | idle hH | fell _ _ hH | started _ _ hH | compacted _ _ hH => exact hkept (by rw [hH])
  | @ran q i p _ _ _ he hq hi hp hf hr =>
    by_cases hqn : n = q
    swap
    · exact hkept (hf.log n hqn)
    subst hqn
    obtain ⟨hw,hsn,ht,hm⟩ := hwrites he hq hi hp
    obtain ⟨_,_,_,_,heff,_⟩ := h.input hq hp hi
    have hpk := (h.hosts n hq).peer p hp
    refine hpk.upholds hw ht hu.lead hD hm hu.log List.length_eq_zero_iff.mp ?_
    rw [List.take_length]
    exact hpk.log_after hf hr heff.kept hsn
  | @died q i p _ _ _ he hq hi hp hf hf₁ hr hlo hhi hos hs hk hlog =>
    by_cases hqn : n = q
    swap
    · exact hkept (hf.log n hqn)
    subst hqn
    obtain ⟨hw,hsn,ht,hm⟩ := hwrites he hq hi hp
    rcases hlog hsn with hsame | ⟨b,hb,hlog⟩
    · exact hkept hsame
    · exact ((h.hosts n hq).peer p hp).upholds hw ht hu.lead hD hm hu.log hb hlog

end Parallax.Cluster
