import Parallax.Cluster.Lifecycle

/-! A crash while a batch is being persisted: any prefix of the unsynced records leaves a
sound disk, under a history in which the node stored just that prefix. -/
namespace Parallax.Cluster
open Consensus Consensus.History
variable {S : Setup} {H H' : Hist} {n : Nat}

private theorem replay_append (d : Storage) (xs ys : List Rec) : replay d (xs ++ ys) = replay (replay d xs) ys :=
  List.foldl_append

theorem replay_hardStates {P : HardState → Prop} (recs : List Rec) :
    ∀ {d : Storage}, (∀ rec ∈ recs, ∃ hs, rec = .hardState hs ∧ P hs) → P d.hardState →
      ∃ hs, replay d recs = { d with hardState := hs } ∧ P hs := by
  induction recs with
  | nil => exact fun _ h => ⟨_,rfl,h⟩
  | cons rec recs ih =>
    intro d hall _
    obtain ⟨hs,rfl,hp⟩ := hall rec (by simp)
    obtain ⟨hs',h1,h2⟩ := ih (d := d.setHardState hs) (fun rec' h' => hall rec' (by simp [h'])) hp
    exact ⟨hs',h1,h2⟩

theorem replay_entries (ents : List Entry) : ∀ {d : Storage} {xs : List Entry} {k : Nat}, d.Repr xs →
    d.offset ≤ k → k ≤ xs.length → IndexedFrom k ents → ents ≠ [] →
    ∃ es, replay d (ents.map Rec.entry) = { d with entries := es } ∧
      ({ d with entries := es } : Storage).Repr (xs.take k ++ ents) := by
  induction ents with
  | nil => exact fun _ _ _ _ hne => absurd rfl hne
  | cons e es ih =>
    intro d xs k hd hk hkl hidx _
    have h1 : IndexedFrom k [e] := by
      intro i e' he'
      cases i with
      | zero =>
        obtain rfl : e = e' := by simpa using he'
        exact hidx.head
      | succ i => simp at he'
    obtain ⟨es₁,happ,hrep⟩ := hd.appendEntries hk hkl h1 (by simp)
    have hstep : replayRec d (.entry e) = { d with entries := es₁ } := by
      simp only [replayRec,happ]
    have hcons : replay d ((e :: es).map Rec.entry) = replay { d with entries := es₁ } (es.map Rec.entry) := by
      simp only [replay,List.map_cons,List.foldl_cons,hstep]
    rw [hcons]
    by_cases hes : es = []
    · subst hes
      exact ⟨es₁,rfl,hrep⟩
    have hlen : (xs.take k ++ [e]).length = k + 1 := by
      rw [List.length_append,List.length_take,min_eq_left hkl]
      rfl
    obtain ⟨es₂,h2,hrep₂⟩ := ih hrep (Nat.le_succ_of_le hk) hlen.symm.le hidx.tail hes
    refine ⟨es₂,h2,?_⟩
    rw [List.take_of_length_le hlen.le,List.append_assoc] at hrep₂
    exact hrep₂

theorem take_records (buf : List Rec) (rd : Ready) (k : Nat) :
    (buf ++ records rd).take k = buf.take k ∨
    (∃ j, 0 < j ∧ j ≤ rd.entries.length ∧
      (buf ++ records rd).take k = buf ++ (rd.entries.take j).map Rec.entry) ∨
    (buf ++ records rd).take k = buf ++ (rd.entries.map Rec.entry ++ rd.hardState.toList.map Rec.hardState) := by
  unfold records
  by_cases h1 : k ≤ buf.length
  · exact .inl (List.take_append_of_le_length h1)
  rw [List.take_append,List.take_of_length_le (by omega)]
  by_cases h2 : k - buf.length ≤ rd.entries.length
  · refine .inr (.inl ⟨k - buf.length,by omega,h2,?_⟩)
    rw [List.take_append_of_le_length (by simpa using h2),List.map_take]
  refine .inr (.inr ?_)
  have hlen : (rd.hardState.toList.map Rec.hardState).length ≤ 1 := by
    cases rd.hardState <;> simp
  rw [List.take_of_length_le (by rw [List.length_append,List.length_map]; omega)]

theorem PeerOK.stored {d : Storage} {p : Peer S.app} (h : PeerOK S H n d p) {r' : Raft} (hf : Frame n H H')
    (ha : At S H' n r') (hk : Raft.Kept p.raft r') (hs : r'.raftLog.unstable.snapshot = none) :
    (H'.log n).take (r'.raftLog.unstable.offset - 1) = (H.log n).take (r'.raftLog.unstable.offset - 1) := by
  have hlog := h.core.ok.log
  have hlog' := ha.ok.log
  have hst := hlog.repr.storage h.clean
  have hlo := hlog'.repr.lower hs
  have hup := hlog'.repr.upper hs
  rw [hk.storage] at hlo hup
  rw [hst.lastIndex] at hup
  set b := p.raft.raftLog.storage.offset with hb
  have hbc : b ≤ p.raft.raftLog.committed := by
    have := hlog.base_le.trans hlog.applied_le
    unfold RaftLog.base at this
    rw [h.clean.1] at this
    exact this
  -- Below the boundary both logs hold the committed prefix.
  have hlow : (H'.log n).take b = (H.log n).take b := by
    have hq : H'.CommittedBy p.raft.term ((H.log n).take b) :=
      (hlog.committed.of_isPrefix (List.take_prefix_take_left hbc)).ext hf.ext
    have hlen : ((H.log n).take b).length = b := by
      rw [List.length_take,min_eq_left (hbc.trans hlog.commit_le)]
    have hp := hlog'.prefix_log ha.good hq (by rw [hlen]; exact hbc.trans hk.committed)
    have := List.prefix_iff_eq_take.mp hp
    rw [hlen] at this
    exact this.symm
  -- Above it both read the same storage.
  have hhigh : ((H'.log n).drop b).take (r'.raftLog.unstable.offset - 1 - b) =
      ((H.log n).drop b).take (r'.raftLog.unstable.offset - 1 - b) := by
    have h1 := hlog'.repr.stored hs (n := r'.raftLog.unstable.offset - 1 - b) (by rw [hk.storage]; omega)
    rw [hk.storage,hst.entries] at h1
    exact h1.symm
  have hsplit : ∀ xs : List Entry, xs.take (r'.raftLog.unstable.offset - 1) =
      xs.take b ++ (xs.drop b).take (r'.raftLog.unstable.offset - 1 - b) := by
    intro xs
    rw [← List.take_add]
    congr 1
    omega
  rw [hsplit,hsplit (H.log n),hlow,hhigh]

/-- A history in which node `n` stored `ys` but kept its term and vote. -/
def Tears (S : Setup) (H : Hist) (n : Nat) (r : Raft) (ys : List Entry) : Prop :=
  ∃ H', Frame n H H' ∧ Good S H' ∧ H'.log n = ys ∧ Durable S H' n r.term r.vote ∧
    (H.log n).take r.raftLog.committed <+: ys

theorem tears_take {d : Storage} {p : Peer S.app} (h : PeerOK S H n d p) {m : Message} (hm : MsgOK S H m)
    (hd : m.dest = n) (ht : m.type = .append) (hle : p.raft.term ≤ m.term) {j i : Nat} {e : Entry}
    (hmt : termAt (H.log n) m.logIndex = m.logTerm) (hje : m.entries[j]? = some e)
    (hne : termAt (H.log n) (m.logIndex + 1 + j) ≠ e.term)
    (hall : ∀ i < j, ∀ e, m.entries[i]? = some e → termAt (H.log n) (m.logIndex + 1 + i) = e.term)
    (hi : 0 < i) :
    Tears S H n p.raft ((H.log n).take (m.logIndex + j) ++ (m.entries.drop j).take i) := by
  have hg := h.core.good
  have ho := h.core.ok
  obtain ⟨he,hb,_⟩ := hm.batch hg ht
  have hsender : m.sender ≠ n := by
    rw [← hd]
    exact hm.ne.symm
  have hsolo := not_solo_of_ne hsender h.core.mem hm.sender
  -- The torn batch is the batch cut behind the conflict.
  have hover : overwrite (H.log n) m.logIndex (m.entries.take (j + i)) =
      (H.log n).take (m.logIndex + j) ++ (m.entries.drop j).take i := by
    rw [overwrite_of_conflict j m.logIndex (m.entries.take (j + i))
      (by rw [List.getElem?_take_of_lt (by omega)]; exact hje) hne,List.drop_take]
    · congr 2
      omega
    intro i' hi' e' he'
    rw [List.getElem?_take_of_lt (by omega)] at he'
    exact hall i' hi' e' he'
  obtain ⟨_,hor⟩ := hb.overwrites hg hmt (List.take_prefix (j + i) m.entries)
  rw [hover] at hor
  set ys := (H.log n).take (m.logIndex + j) ++ (m.entries.drop j).take i with hys
  have hcomm : (H.log n).take p.raft.raftLog.committed <+: H.lead m.term :=
    ho.log.prefix_lead hg he.mem_terms hle
  rcases hor with hx | ⟨hyl,hk⟩
  · refine ⟨H,Frame.refl n H,hg,hx.symm,ho.durable,?_⟩
    rw [hx]
    exact List.take_prefix _ _
  refine ⟨H.accept n ys,Frame.accept n ys,⟨?_,hg.indexed,hg.member⟩,accept_log_self _ _,?_,?_⟩
  · exact hg.inv.accept hyl hk he.mem_terms fun s hs => ho.durable.no_ack (Nat.lt_of_le_of_lt hle hs)
  · exact { ho.durable with solo := fun hs => absurd hs hsolo }
  · exact hk _ (List.take_prefix _ _) hcomm

theorem tears_write {d : Storage} {p : Peer S.app} (h : PeerOK S H n d p) {t : Nat} {ents : List Entry}
    (hw : Writable S.quorums Entry.term H n t ents []) (hown : ∀ q, q ≠ n → ¬ H.Elected t q)
    (hidx : IndexedFrom (H.log n).length ents) (hlo : p.raft.term ≤ t) (hhi : t ≤ p.raft.term + 1) :
    Tears S H n p.raft (H.log n ++ ents) := by
  have hg := h.core.good
  have ho := h.core.ok
  have hlog : (H.write n t ents []).log n = H.log n ++ ents := write_log_self _ _ _ _
  refine ⟨H.write n t ents [],Frame.write hw.lead_log hown (by simp),⟨hg.inv.write hw,fun t' => ?_,hg.member⟩,
    hlog,?_,(List.take_prefix _ _).trans (List.prefix_append _ _)⟩
  · by_cases ht : t' = t
    · subst ht
      rw [write_lead_self]
      exact (hg.log_indexed n).append hidx
    · rw [write_lead_ne _ _ _ _ _ ht]
      exact hg.indexed t'
  refine { ho.durable with solo := fun hs => ⟨?_,fun t' ht' => ?_⟩ }
  · rw [hlog]
    intro e he
    rcases List.mem_append.mp he with he | he
    · exact (ho.durable.solo hs).1 e he
    · rw [hw.entries e he]
      exact hhi
  by_cases ht : t' = t
  · subst ht
    rw [write_lead_self,hlog]
  · rw [write_lead_ne _ _ _ _ _ ht,hlog]
    exact ((ho.durable.solo hs).2 t' ht').trans (List.prefix_append _ _)

theorem elected_cand_before (hn : n ∈ S.peers) (hg : Good S H) (hf : Frame n H H') (hg' : Good S H')
    (hs : ¬ S.quorums.Solo) {t : Nat} (he : H'.Elected t n) : ∃ l, H.cand n t = some l := by
  obtain ⟨Q,hQ,hb⟩ := hg'.inv.backed he
  -- A majority of several has a member besides `n`, whose ballot this step did not touch.
  obtain ⟨q,hq,hqn⟩ : ∃ q ∈ Q, q ≠ n := by
    by_contra hno
    have hsub : Q ⊆ {n} := fun q hq => by
      by_contra hne
      exact hno ⟨q,hq,by simpa using hne⟩
    have hcard := Finset.card_le_card hsub
    rw [Finset.card_singleton] at hcard
    have hpos := List.length_pos_of_mem hn
    have hlt := hQ.2
    exact hs (show S.peers.length = 1 by omega)
  obtain ⟨b,hbq,rfl⟩ := hb q hq
  rw [hf.ballot q hqn] at hbq
  obtain ⟨l,hl,_⟩ := hg.inv.ballot_cand q t b hbq
  exact ⟨l,hl⟩

theorem tears_solo {d : Storage} {p : Peer S.app} (h : PeerOK S H n d p) (hsolo : S.quorums.Solo) {t : Nat}
    (ht : t = p.raft.term + 1) (es : List Entry) :
    Tears S H n p.raft (H.log n ++ Raft.stampEntries t (H.log n).length es) := by
  have hg := h.core.good
  have hdur := h.core.ok.durable.solo hsolo
  have hlead : H.lead t <+: H.log n := hdur.2 _ (by omega)
  refine tears_write h (t := t) ?_ ?_ (stampEntries_indexed _ _ _) (by omega) ht.le
  · exact
      { pos := by omega
        entries := stampEntries_term _ _ _
        log_le := fun e he => by rw [ht]; exact hdur.1 e he
        lead_log := hlead
        elected := fun hns => absurd hsolo hns
        won := hg.inv.won.ext (Ext.write _ _ hlead) }
  intro q hq hel
  obtain ⟨l,hl⟩ := hg.elected_cand hel
  exact not_solo_of_ne hq h.core.mem (hg.member q _ l hl) hsolo

theorem PeerOK.tears {d : Storage} {p : Peer S.app} (h : PeerOK S H n d p) {r' : Raft} {i : Option Message}
    (hf : Frame n H H') (ha : At S H' n r') (he : Raft.LogEffect p.raft i r')
    (hi : ∀ m, i = some m → m.type = .append → MsgOK S H m ∧ m.dest = n) {j : Nat} (hj : 0 < j)
    (hjl : j ≤ r'.raftLog.unstable.entries.length) :
    Tears S H n p.raft
      ((H.log n).take (r'.raftLog.unstable.offset - 1) ++ r'.raftLog.unstable.entries.take j) := by
  have hlog := h.core.ok.log
  have hg := h.core.good
  cases he with
  | quiet hq =>
    rw [hq.unstable,h.clean.2,List.length_nil] at hjl
    omega
  | restore _ snap _ _ hk hc hu hcm ha' =>
    rw [hu] at hjl
    exact absurd hjl (by simp [Unstable.restore]; omega)
  | take m him hk ht hterm hle hc hm hu ha' =>
    obtain ⟨hmok,hd⟩ := hi m him ht
    obtain ⟨_,hb,_⟩ := hmok.batch hg ht
    have hbase : p.raft.raftLog.base.index ≤ m.logIndex :=
      (hlog.base_le.trans hlog.applied_le).trans hc
    have hmt : termAt (H.log n) m.logIndex = m.logTerm := by
      rw [hlog.repr.matchTerm_eq hbase] at hm
      simpa using hm
    rcases hlog.repr.maybeAppend_clean h.clean m.commit hbase hc hb.indexed hb.pos
      (hb.matched _ (hg.inv.log_coh n) hmt).1 hm with hx | ⟨j₀,e,hje,hne,hall,_,hx⟩
    · rw [hu,hx,h.clean.2,List.length_nil] at hjl
      omega
    · rw [hu,hx]
      exact tears_take h hmok hd ht hle hmt hje hne hall hj
  | lead es hk hs hne hu ha' hby =>
    have hidx := stampEntries_indexed r'.term (H.log n).length es
    rw [hlog.repr.lastIndex] at hu
    have hents : Raft.stampEntries r'.term (H.log n).length es ≠ [] := by
      intro hnil
      apply hne
      rw [← List.length_eq_zero_iff,← stampEntries_length r'.term (H.log n).length es,hnil]
      rfl
    rw [hlog.repr.append_clean h.clean le_rfl hidx hents] at hu
    have hL : Leading S H' n r'.term r' := ⟨ha,hs,rfl⟩
    have hfull : es = [{ type := .noop }] → r'.raftLog.unstable.entries.take j = r'.raftLog.unstable.entries := by
      intro he
      apply List.take_of_length_le
      rw [hu]
      simp only [stampEntries_length,he,List.length_singleton]
      omega
    cases hby with
    | led hst ht hv =>
      have hLead : Leading S H n p.raft.term p.raft := ⟨h.core,hst,rfl⟩
      rw [hu]
      simp only [Nat.add_sub_cancel,List.take_length]
      exact tears_write h (t := p.raft.term)
        (hLead.writable fun e he => ht ▸ stampEntries_term _ _ _ e (List.mem_of_mem_take he)) hLead.own
        (hidx.take j) le_rfl (Nat.le_succ _)
    | stood hst he ht hv =>
      -- Term and vote did not change, so the history of the whole step fits.
      rw [hfull he]
      have hst' := h.stored hf ha hk (by rw [hu])
      refine ⟨H',hf,ha.good,?_,by rw [← ht,← hv]; exact ha.ok.durable,?_⟩
      · rw [← hst',ha.ok.log.repr.split.2.2,List.take_append_drop]
      rw [hu]
      simp only [Nat.add_sub_cancel,List.take_length]
      exact (List.take_prefix _ _).trans (List.prefix_append _ _)
    | campaigned he ht _ =>
      rw [hfull he,hu]
      simp only [Nat.add_sub_cancel,List.take_length]
      by_cases hsolo : S.quorums.Solo
      swap
      · obtain ⟨l,hl⟩ := elected_cand_before h.core.mem hg hf ha.good hsolo hL.leads.elected
        have := (h.core.ok.durable.cand _ l hl).1
        omega
      · exact tears_solo h hsolo ht es

theorem DiskOK.withHardState {d : Storage} {p : Peer S.app} (h : PeerOK S H n d p) (hd : DiskOK S H n d)
    {hs : HardState} (hb : Behind hs p.raft) : DiskOK S H n { d with hardState := hs } :=
  h.core.disk (hd.repr.congr rfl rfl) (h.disk.1 ▸ hd.snap) hb

theorem Tears.disk {d : Storage} {p : Peer S.app} (h : PeerOK S H n d p) (hd : DiskOK S H n d)
    {ys : List Entry} (ht : Tears S H n p.raft ys) {st : Storage} (hst : st.Repr ys)
    (hsn : st.snapshot = d.snapshot) (hb : Behind st.hardState p.raft) :
    ∃ H', Frame n H H' ∧ Good S H' ∧ H'.log n = ys ∧ DiskOK S H' n st := by
  obtain ⟨H',hf,hg,rfl,hdur,hpre⟩ := ht
  refine ⟨H',hf,hg,rfl,?_⟩
  have hlog := h.core.ok.log
  have hc := hb.2.2
  have htake : (H'.log n).take st.hardState.commit = (H.log n).take st.hardState.commit :=
    take_eq_of_take_isPrefix (hc.trans hlog.commit_le) ((List.take_prefix_take_left hc).trans hpre)
  refine ⟨hst,?_,by rw [hb.1,hb.2.1]; exact hdur,?_,?_⟩
  · rw [hb.1,hsn,← h.disk.1]
    exact hd.snap.ext hf.ext
  · exact hc.trans (le_length_of_take_isPrefix hlog.commit_le hpre)
  · rw [hb.1,htake]
    exact (hlog.committed.of_isPrefix (List.take_prefix_take_left hc)).ext hf.ext

theorem PeerOK.log_after {d : Storage} {p : Peer S.app} (h : PeerOK S H n d p) {r' : Raft} (hf : Frame n H H')
    (ha : At S H' n r') (hk : Raft.Kept p.raft r') (hs : r'.raftLog.unstable.snapshot = none) :
    H'.log n = (H.log n).take (r'.raftLog.unstable.offset - 1) ++ r'.raftLog.unstable.entries := by
  rw [← h.stored hf ha hk hs,ha.ok.log.repr.split.2.2,List.take_append_drop]

theorem PeerOK.torn {d : Storage} {p : Peer S.app} (h : PeerOK S H n d p) (hd : DiskOK S H n d) {r' : Raft}
    {i : Option Message} (hf : Frame n H H') (ha : At S H' n r') (hterm : p.raft.term ≤ r'.term)
    (he : Raft.LogEffect p.raft i r')
    (hi : ∀ m, i = some m → m.type = .append → MsgOK S H m ∧ m.dest = n) {rd : Ready}
    (hrd : r'.ready = .ok rd) (hns : rd.snapshot = none) (k : Nat) :
    ∃ H₁, Frame n H H₁ ∧ Good S H₁ ∧ DiskOK S H₁ n (replay d ((p.buf ++ records rd).take k)) ∧
      d.hardState.term ≤ (replay d ((p.buf ++ records rd).take k)).hardState.term ∧
      (replay d ((p.buf ++ records rd).take k)).hardState.term ≤ r'.term ∧
      (H₁.log n = H.log n ∨ ∃ j, (j = 0 → r'.raftLog.unstable.entries = []) ∧
        H₁.log n = (H.log n).take (r'.raftLog.unstable.offset - 1) ++ r'.raftLog.unstable.entries.take j) := by
  have hlog' := ha.ok.log
  have hr := hlog'.readyOf hrd
  have hents := hr.entries
  have hs : r'.raftLog.unstable.snapshot = none := hr.snapshot.symm.trans hns
  have hk := he.kept
  have hoff : r'.raftLog.storage.offset = d.offset := by
    unfold Storage.offset
    rw [hk.storage,h.snapshot]
  have hlo : d.offset ≤ r'.raftLog.unstable.offset - 1 := by
    have := hlog'.repr.lower hs
    omega
  have hup : r'.raftLog.unstable.offset - 1 ≤ (H.log n).length := by
    have := hlog'.repr.upper hs
    rw [hk.storage,(h.core.ok.log.repr.storage h.clean).lastIndex] at this
    omega
  have hsplit := h.log_after hf ha hk hs
  rcases take_records p.buf rd k with hx | ⟨j,hj,hjl,hx⟩ | hx
  · obtain ⟨hs₁,heq,hb⟩ := replay_hardStates (P := (Behind · p.raft)) (p.buf.take k)
      (fun rec hrec => h.buf rec (List.mem_of_mem_take hrec)) h.disk
    refine ⟨H,Frame.refl n H,h.core.good,?_⟩
    rw [hx,heq]
    exact ⟨hd.withHardState h hb,(h.disk.1.trans hb.1.symm).le,hb.1.trans_le hterm,.inl rfl⟩
  · obtain ⟨hs₁,heq,hb⟩ := replay_hardStates (P := (Behind · p.raft)) p.buf h.buf h.disk
    rw [hents] at hjl hx
    obtain ⟨es,hre,hrep⟩ := replay_entries (r'.raftLog.unstable.entries.take j)
      (d := { d with hardState := hs₁ }) (hd.repr.congr rfl rfl) hlo hup
      (hlog'.repr.unstable_indexed.take j) (by
        rw [← List.length_pos_iff,List.length_take]
        omega)
    obtain ⟨H₁,hf₁,hg₁,hys,hd₁⟩ := (h.tears hf ha he hi hj hjl).disk h hd hrep rfl hb
    refine ⟨H₁,hf₁,hg₁,?_⟩
    rw [hx,replay_append,heq,hre]
    exact ⟨hd₁,(h.disk.1.trans hb.1.symm).le,hb.1.trans_le hterm,.inr ⟨j,fun h0 => absurd h0 hj.ne',hys⟩⟩
  obtain ⟨hs₁,heq,hb⟩ := replay_hardStates (P := (Behind · p.raft)) p.buf h.buf h.disk
  obtain ⟨es,hre,hrep⟩ : ∃ es, replay { d with hardState := hs₁ } (rd.entries.map Rec.entry) =
      { d with hardState := hs₁, entries := es } ∧
      ({ d with hardState := hs₁, entries := es } : Storage).Repr (H'.log n) := by
    by_cases hne : rd.entries = []
    · refine ⟨d.entries,by rw [hne]; rfl,?_⟩
      have := hlog'.repr.storage ⟨hs,hents.symm.trans hne⟩
      rw [hk.storage] at this
      exact this.congr h.snapshot.symm h.entries.symm
    · rw [hsplit,← hents]
      exact replay_entries rd.entries (hd.repr.congr rfl rfl) hlo hup (hents ▸ hlog'.repr.unstable_indexed) hne
  obtain ⟨hs₂,hre₂,hb₂⟩ : ∃ hs₂, replay { d with hardState := hs₁, entries := es }
      (rd.hardState.toList.map Rec.hardState) = { d with hardState := hs₂, entries := es } ∧
      Behind hs₂ r' := by
    rw [hr.hardState]
    split_ifs with hne
    · exact ⟨r'.hardState,rfl,rfl,rfl,le_rfl⟩
    have heq := not_not.mp hne
    rw [hk.prevHardSt,h.prev] at heq
    have ht : r'.term = p.raft.term := congrArg HardState.term heq
    have hv : r'.vote = p.raft.vote := congrArg HardState.vote heq
    exact ⟨hs₁,rfl,hb.1.trans ht.symm,hb.2.1.trans hv.symm,hb.2.2.trans hk.committed⟩
  refine ⟨H',hf,ha.good,?_⟩
  rw [hx,replay_append,replay_append,heq,hre,hre₂]
  refine ⟨?_,(h.disk.1.trans_le hterm).trans hb₂.1.symm.le,hb₂.1.le,.inr ⟨_,List.length_eq_zero_iff.mp,by rw [List.take_length]; exact hsplit⟩⟩
  · refine ha.disk (hrep.congr rfl rfl) ?_ hb₂
    have := hlog'.snap
    rw [hk.storage,h.snapshot] at this
    exact this

end Parallax.Cluster
