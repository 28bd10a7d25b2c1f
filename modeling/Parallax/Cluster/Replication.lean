import Parallax.Cluster.Cycle
import Parallax.Raft.Calls

/-! What a leader knows and says of logs: a match index is backed by the follower's disk, and every
append or snapshot describes the log it is sent from. -/
namespace Parallax.Cluster
open Consensus Consensus.History
variable {S : Setup} {H H' : Hist} {s : State S.app} {n : Nat}

/-- Batches reach the disk whole. -/
def Event.Atomic : Event → Prop
  | .torn _ _ _ => False
  | _ => True

instance : (e : Event) → Decidable e.Atomic
  | .torn _ _ _ => .isFalse id
  | .input _ _ _ | .unsent _ _ | .crash _ | .restart _ _ | .compact _ => .isTrue trivial

/-- Every node holds on disk what it acknowledged in the term it has stored. -/
def Kept (S : Setup) (s : State S.app) (H : Hist) : Prop :=
  ∀ q ∈ S.peers, Holds H q (s.host q).disk.hardState.term

theorem Holds.frame (h : Holds H n t) (hg : Good S H) {q : Nat} (hf : Frame q H H') (hne : n ≠ q) : Holds H' n t := by
  rw [Holds,hf.log n hne,hf.ack n hne,hf.ext.take_lead (hg.inv.ack_le n t)]
  exact h

theorem Kept.act (h : Kept S s H) (hg : Good S H) (hf : Frame n H H') {hst : Host S.app}
    (hh : Holds H' n hst.disk.hardState.term) : Kept S (s.setHost n hst) H' := by
  intro q hq
  by_cases hqn : q = n
  · subst hqn
    simpa [State.setHost] using hh
  · simpa [State.setHost,hqn] using (h q hq).frame hg hf hqn

theorem Kept.next {e : Event} (hI : Inv S s H) (he : e.Atomic) (hc : Change S H H' s e (s.next S e))
    (h : Kept S s H) : Kept S (s.next S e) H' := by
  cases hc with
  | idle hH hs =>
    rw [hH,hs]
    exact h
  | @ran n i p _ _ _ _ hn _ hp hf _ _ _ hd _ hs hk =>
    have hpk := (hI.hosts n hn).peer p hp
    rw [hs]
    exact h.act hI.good hf (by rw [hd]; exact hk (hpk.disk.1 ▸ h n hn))
  | @died n i p _ _ _ he' hn _ hp hf _ _ _ _ _ hs hk =>
    have hpk := (hI.hosts n hn).peer p hp
    have hno : ∀ k, e ≠ .torn n i k := by
      rintro k rfl
      exact he
    rw [hs]
    exact h.act hI.good hf (hk hno (hpk.disk.1 ▸ h n hn))
  | @fell n _ hn hH hs =>
    rw [hH,hs]
    exact h.act hI.good (Frame.refl n H) (h n hn)
  | @started n _ _ _ hn hH _ _ hs =>
    rw [hH,hs]
    exact h.act hI.good (Frame.refl n H) (h n hn)
  | @compacted n _ _ hn hH hd _ hs =>
    rw [hH,hs]
    exact h.act hI.good (Frame.refl n H) (by rw [hd]; exact h n hn)

theorem ReachableIf.kept (h : ReachableIf S (fun _ e => e.Atomic) s) : ∃ H, Inv S s H ∧ Kept S s H := by
  refine h.inductHist (fun q _ => ?_) fun hI hc hch _ hk => hk.next hI hc hch
  rw [Holds]
  exact List.nil_prefix

/-- Match is truthful: up to it the follower's disk has the leader's log, unless the follower has gone on to
another term. -/
theorem match_truthful (h : ReachableIf S (fun _ e => e.Atomic) s) (hn : n ∈ S.peers) {p : Peer S.app}
    (hp : (s.host n).vol = some p) (hl : p.raft.state = .leader) {f : Nat} (hf : f ∈ S.peers) {pr : Progress}
    (hpr : p.raft.prs.lookup f = some pr) :
    pr.matched ≤ p.raft.raftLog.lastIndex ∧
    (p.raft.term < (s.host f).disk.hardState.term ∨
      (pr.matched ≤ (s.host f).disk.lastIndex ∧
        ∀ i ≤ pr.matched, p.raft.raftLog.base.index ≤ i → (s.host f).disk.offset ≤ i →
          ∃ t, p.raft.raftLog.term i = .ok t ∧ (s.host f).disk.term i = .ok t)) := by
  obtain ⟨H,hI,hk⟩ := h.kept
  have hcore := ((hI.hosts n hn).peer p hp).core
  have hlead := hcore.ok.leads hl
  have hrepr := hcore.ok.log.repr
  have hdisk := (hI.hosts f hf).disk
  have hm := hlead.matched f pr hpr
  have hack := hI.good.inv.ack_le f p.raft.term
  rw [hrepr.lastIndex,hlead.log]
  refine ⟨hm.trans hack,or_iff_not_imp_left.mpr fun hle => ?_⟩
  -- What `f` acknowledged in this term is on its disk: it is still in the term, or acknowledged nothing.
  have hholds : (H.lead p.raft.term).take (H.ack f p.raft.term) <+: H.log f := by
    rcases Nat.lt_or_ge (s.host f).disk.hardState.term p.raft.term with hlt | hge
    · exact hdisk.durable.holds hlt
    · rw [show p.raft.term = (s.host f).disk.hardState.term by omega]
      exact hk f hf
  have hpre : (H.log n).take pr.matched <+: H.log f := by
    rw [hlead.log]
    exact (List.take_prefix_take_left hm).trans hholds
  have hlen : ((H.log n).take pr.matched).length = pr.matched := by
    rw [List.length_take,hlead.log]
    omega
  refine ⟨?_,fun i hi hb ho => ⟨_,hrepr.term_eq hb,?_⟩⟩
  · rw [hdisk.repr.lastIndex,← hlen]
    exact hpre.length_le
  · have hif : i ≤ (H.log f).length := hi.trans (hlen.symm.trans_le hpre.length_le)
    rw [hdisk.repr.term_eq ho hif,termAt_of_isPrefix hpre (hi.trans_eq hlen.symm),termAt_take hi]

private theorem settled_atomic : ReachableIf (trio false) (fun _ e => e.Atomic) settled :=
  ReachableIf.play settling .init (by decide) (by decide +kernel)

theorem match_truthful_settled : ∃ p pr, (settled.host 1).vol = some p ∧ p.raft.prs.lookup 2 = some pr ∧
    pr.matched = 1 ∧ pr.matched ≤ p.raft.raftLog.lastIndex := by
  have h : (settled.host 1).vol.any (fun p => p.raft.state = .leader ∧
      (p.raft.prs.lookup 2).any fun pr => pr.matched = 1) = true := by decide +kernel
  obtain ⟨p,hp,hc⟩ := (Option.any_eq_true _ _).mp h
  obtain ⟨hl,hc⟩ := of_decide_eq_true hc
  obtain ⟨pr,hpr,hm⟩ := (Option.any_eq_true _ _).mp hc
  exact ⟨p,pr,hp,hpr,of_decide_eq_true hm,(match_truthful settled_atomic (by decide) hp hl (by decide) hpr).1⟩

/-- How many entries from `next` on an append carries. -/
def shipped (limit next last : Nat) : Nat :=
  if limit > 0 then min limit (last + 1 - next) else last + 1 - next

/-- `m` describes the log `l` from `next` on. -/
structure Describes (l : RaftLog) (limit next : Nat) (m : Message) : Prop where
  type : m.type = .append
  logIndex : m.logIndex + 1 = next
  logIndex_le : m.logIndex ≤ l.lastIndex
  logTerm : l.term m.logIndex = .ok m.logTerm
  logTerm_zero : m.logTerm = 0 ↔ m.logIndex = 0
  length : m.entries.length = shipped limit next l.lastIndex
  entries : ∀ k e, m.entries[k]? = some e → l.entry? (next + k) = some e ∧ e.index = next + k
  commit : m.commit ≤ l.lastIndex

/-- `m` ships the boundary of the log `l`. -/
structure Ships (l : RaftLog) (m : Message) : Prop where
  type : m.type = .installSnapshot
  snapshot : m.snapshot = some l.storage.snapshot
  boundary : l.storage.snapshot.metadata = l.base

/-- What `m` describes is still part of the log `l`, where `l` has not compacted it. -/
def StillIn (l : RaftLog) (m : Message) : Prop :=
  (m.type = .append → (∀ e ∈ m.entries, l.entry? e.index = some e ∨ e.index ≤ l.base.index) ∧
    (l.base.index ≤ m.logIndex → l.term m.logIndex = .ok m.logTerm)) ∧
  (m.type = .installSnapshot → ∀ snap, m.snapshot = some snap → l.base.index ≤ snap.metadata.index →
    l.term snap.metadata.index = .ok snap.metadata.term)

section sending
variable {r : Raft} {xs : List Entry} {id : Nat} {pr : Progress}

private theorem entriesToSend_below (hr : r.raftLog.Repr xs) {lo : Nat} (hb : lo ≤ r.raftLog.base.index) :
    r.entriesToSend lo = .error .compacted := by
  have hle := hr.le
  unfold Raft.entriesToSend
  rw [hr.lastIndex,if_neg (by omega)]
  rw [hr.slice_below hb,if_neg]
  split_ifs <;> omega

private theorem entriesToSend_above (hr : r.raftLog.Repr xs) {lo : Nat} (hb : r.raftLog.base.index < lo) :
    r.entriesToSend lo = .ok ((xs.drop (lo - 1)).take (shipped r.cfg.maxEntriesPerAppend lo xs.length)) := by
  unfold Raft.entriesToSend
  rw [hr.lastIndex]
  by_cases hlast : lo > xs.length
  · rw [if_pos hlast,List.drop_eq_nil_of_le (by omega),List.take_nil]
  rw [if_neg hlast]
  rw [hr.slice_eq hb (by omega),List.drop_take]
  unfold shipped
  congr 2
  split_ifs <;> omega

theorem sendAppend_below (hr : r.raftLog.Repr xs) (hsn : r.raftLog.unstable.snapshot = none)
    (hpr : r.prs.lookup id = some pr) (hpos : 1 ≤ pr.next) (hb : pr.next ≤ r.raftLog.base.index) :
    r.sendAppend id =
      r.send { type := .installSnapshot, dest := id, snapshot := some r.raftLog.storage.snapshot } := by
  have hbase : r.raftLog.base = r.raftLog.storage.snapshot.metadata := by rw [RaftLog.base,hsn]
  unfold Raft.sendAppend
  simp only [hpr]
  rw [hr.term_below (by omega)]
  rw [entriesToSend_below hr hb]
  simp only [Raft.sendSnapshot,reduceCtorEq,if_false]
  rw [← hbase,if_neg (by omega)]

theorem sendAppend_above (hr : r.raftLog.Repr xs) (hpr : r.prs.lookup id = some pr)
    (hb : r.raftLog.base.index < pr.next) :
    r.sendAppend id = r.send
      { type := .append, dest := id, logIndex := pr.next - 1, logTerm := termAt xs (pr.next - 1)
        entries := (xs.drop (pr.next - 1)).take (shipped r.cfg.maxEntriesPerAppend pr.next xs.length)
        commit := r.raftLog.committed } := by
  unfold Raft.sendAppend
  simp only [hpr]
  rw [hr.term_eq (by omega)]
  rw [entriesToSend_above hr hb]

private theorem sendAppend_ships (hr : r.raftLog.Repr xs) (hsn : r.raftLog.unstable.snapshot = none)
    (hpr : r.prs.lookup id = some pr) (hpos : 1 ≤ pr.next) (hb : pr.next ≤ r.raftLog.base.index) :
    ∃ m, Raft.Queues (r,id) m ∧ m.dest = id ∧ m.sender = r.id ∧ m.term = r.term ∧ Ships r.raftLog m := by
  refine ⟨{ type := .installSnapshot, dest := id, sender := r.id, term := r.term
            snapshot := some r.raftLog.storage.snapshot },?_,rfl,rfl,rfl,rfl,rfl,?_⟩
  · rw [Raft.Queues,sendAppend_below hr hsn hpr hpos hb,Raft.send,
      r.stampMessage_zero rfl (by simp [Raft.Stamped])]
  · rw [RaftLog.base,hsn]

private theorem sendAppend_describes (hr : r.raftLog.Repr xs) (hpos : ∀ i, 0 < i → i ≤ xs.length → 0 < termAt xs i)
    (hc : r.raftLog.committed ≤ xs.length) (hpr : r.prs.lookup id = some pr) (hn : pr.next ≤ xs.length + 1)
    (hb : r.raftLog.base.index < pr.next) : ∃ m, Raft.Queues (r,id) m ∧ m.dest = id ∧ m.sender = r.id ∧
      m.term = r.term ∧ Describes r.raftLog r.cfg.maxEntriesPerAppend pr.next m := by
  refine ⟨{ type := .append, dest := id, sender := r.id, term := r.term, logIndex := pr.next - 1
            logTerm := termAt xs (pr.next - 1)
            entries := (xs.drop (pr.next - 1)).take (shipped r.cfg.maxEntriesPerAppend pr.next xs.length)
            commit := r.raftLog.committed },?_,rfl,rfl,rfl,
    ⟨rfl,?_,?_,hr.term_eq (by simp only; omega),?_,?_,fun k e he => ?_,?_⟩⟩
  · rw [Raft.Queues,sendAppend_above hr hpr hb,Raft.send,r.stampMessage_zero rfl (by simp [Raft.Stamped])]
  · exact Nat.sub_add_cancel (by omega)
  · rw [hr.lastIndex]
    simp only
    omega
  · simp only
    refine ⟨fun h0 => ?_,fun h0 => by rw [h0]; rfl⟩
    by_contra hne
    have := hpos (pr.next - 1) (by omega) (by omega)
    omega
  · rw [hr.lastIndex]
    simp only [List.length_take,List.length_drop]
    unfold shipped
    split_ifs <;> omega
  · have hk : xs[pr.next - 1 + k]? = some e := by
      simp only [List.getElem?_take] at he
      split at he
      · rwa [List.getElem?_drop] at he
      · cases he
    refine ⟨?_,?_⟩
    · rw [hr.entry?_eq (by omega),← hk]
      congr 1
      omega
    · rw [hr.indexed _ e hk]
      omega
  · rw [hr.lastIndex]
    exact hc

theorem Describes.stillIn {l l' : RaftLog} {limit next : Nat} {m : Message} {ys : List Entry}
    (h : Describes l limit next m) (hr : l.Repr xs) (hb : l.base.index < next) (hr' : l'.Repr ys) (hp : xs <+: ys) :
    StillIn l' m := by
  refine ⟨fun _ => ⟨fun e he => ?_,fun hb' => ?_⟩,fun ht => nomatch h.type.symm.trans ht⟩
  · obtain ⟨k,hk⟩ := List.mem_iff_getElem?.mp he
    obtain ⟨he,hidx⟩ := h.entries k e hk
    rw [or_iff_not_imp_right,not_le]
    intro hb'
    obtain ⟨_,hx⟩ := entry?_some hr he
    obtain ⟨zs,rfl⟩ := hp
    rw [hr'.entry?_eq hb',hidx,List.getElem?_append_left (List.getElem?_eq_some_iff.mp hx).1,hx]
  have hle := h.logIndex_le
  have ht := h.logTerm
  have hli := h.logIndex
  rw [hr.lastIndex] at hle
  rw [hr.term_eq (by omega)] at ht
  rw [hr'.term_eq hb',termAt_of_isPrefix hp hle,ht]

theorem Ships.stillIn {l l' : RaftLog} {m : Message} {ys : List Entry} (h : Ships l m) (hr : l.Repr xs)
    (hr' : l'.Repr ys) (hp : xs <+: ys) : StillIn l' m := by
  refine ⟨fun ht => (nomatch h.type.symm.trans ht),fun _ snap hs hb' => ?_⟩
  rw [h.snapshot] at hs
  obtain rfl := Option.some.inj hs
  rw [h.boundary] at hb' ⊢
  rw [hr'.term_eq hb',termAt_of_isPrefix hp hr.le,hr.term]

end sending

/-- The calls of `sendAppend` an input makes. -/
def Input.calls (r : Raft) : Input → List (Raft × Nat)
  | .tick => []
  | .step m => r.stepCalls m

theorem Input.sentBy (i : Input) (r : Raft) : Raft.SentBy (i.calls r) r (i.run r) := by
  cases i with
  | tick => exact r.tick_asides.sentBy
  | step m => exact r.step_sentBy m

theorem Inv.callsIn (h : Inv S s H) (hn : n ∈ S.peers) {p : Peer S.app} (hp : (s.host n).vol = some p) {i : Input}
    (hi : s.Admits n i) : Raft.CallsIn p.raft (i.run p.raft) (i.calls p.raft) := by
  cases i with
  | tick => exact .nil
  | step m =>
    refine p.raft.step_calls fun h1 h2 => ?_
    obtain ⟨hm,hd⟩ := hi.mem rfl h1 h2
    rw [((h.hosts n hn).peer p hp).core.ok.id,← hd]
    exact (h.net m hm).ne.symm

theorem Inv.call (h : Inv S s H) (hn : n ∈ S.peers) {p : Peer S.app} (hp : (s.host n).vol = some p) {i : Input}
    (hi : s.Admits n i) {r : Raft} {f : Nat} (hc : (r,f) ∈ i.calls p.raft) : (i.run p.raft).raftLog = r.raftLog ∧
      ∃ pr m, r.prs.lookup f = some pr ∧ 1 ≤ pr.next ∧ Raft.Queues (r,f) m ∧ m.dest = f ∧ m.sender = n ∧
        m.term = r.term ∧ if pr.next ≤ r.raftLog.base.index then Ships r.raftLog m
          else Describes r.raftLog r.cfg.maxEntriesPerAppend pr.next m := by
  have hin := h.callsIn hn hp hi (r,f) hc
  have hsame := hin.same
  have hlog : (i.run p.raft).raftLog = r.raftLog := hsame.raftLog
  obtain ⟨H',_,ha,_⟩ := h.input hn hp hi
  have hrepr := ha.ok.log.repr
  have hcommit := ha.ok.log.commit_le
  rw [hlog] at hrepr hcommit
  obtain ⟨pr,hpr⟩ : ∃ pr, r.prs.lookup f = some pr := by
    refine Option.isSome_iff_exists.mp (hin.known.elim (fun hf => ?_) id)
    rw [← hsame.prs]
    exact ha.ok.prs f (ha.ok.peers.mem_iff.mp hf)
  obtain ⟨hn1,hn2⟩ := (ha.ok.leads (hsame.state.trans hin.state)).next f pr (hsame.prs ▸ hpr)
  have hsn : r.raftLog.unstable.snapshot = none := hin.snapshot.trans ((h.hosts n hn).peer p hp).clean.1
  have hid : r.id = n := by rw [← hsame.id,ha.ok.id]
  refine ⟨hlog,?_⟩
  by_cases hb : pr.next ≤ r.raftLog.base.index
  · obtain ⟨m,hq,hd,hsnd,ht,hm⟩ := sendAppend_ships hrepr hsn hpr hn1 hb
    exact ⟨pr,m,hpr,hn1,hq,hd,hsnd.trans hid,ht,by rwa [if_pos hb]⟩
  obtain ⟨m,hq,hd,hsnd,ht,hm⟩ := sendAppend_describes hrepr
    (fun _ => ha.good.termAt_pos (ha.good.inv.log_coh n)) hcommit hpr hn2 (Nat.lt_of_not_le hb)
  exact ⟨pr,m,hpr,hn1,hq,hd,hsnd.trans hid,ht,by rwa [if_neg hb]⟩

/-- Only calls of `sendAppend` send parts of the log. -/
theorem Inv.carried (h : Inv S s H) (hn : n ∈ S.peers) {p : Peer S.app} (hp : (s.host n).vol = some p) {i : Input}
    {m : Message} (hm : m ∈ (i.run p.raft).msgs) (hc : Raft.Carries m) : ∃ c ∈ i.calls p.raft, Raft.Queues c m := by
  rcases i.sentBy p.raft m hm with hm | hm | hm
  · rw [((h.hosts n hn).peer p hp).msgs] at hm
    cases hm
  · exact absurd hc hm
  · exact hm

/-- So what is sent is part of the log that the input leaves. -/
theorem Inv.sent (h : Inv S s H) (hn : n ∈ S.peers) {p : Peer S.app} (hp : (s.host n).vol = some p) {i : Input}
    (hi : s.Admits n i) {m : Message} (hm : m ∈ (i.run p.raft).msgs) (hc : Raft.Carries m) :
    ∃ limit next, 1 ≤ next ∧ if next ≤ (i.run p.raft).raftLog.base.index then Ships (i.run p.raft).raftLog m
      else Describes (i.run p.raft).raftLog limit next m := by
  obtain ⟨⟨r,f⟩,hcall,hq⟩ := h.carried hn hp hm hc
  obtain ⟨hlog,pr,m',_,hn1,hq',_,_,_,hm'⟩ := h.call hn hp hi hcall
  obtain rfl : m = m' := List.singleton_inj.mp (List.append_cancel_left (hq.symm.trans hq'))
  rw [hlog]
  exact ⟨_,pr.next,hn1,hm'⟩

/-- Parts of the log are sent by `sendAppend` alone, and each of its calls queues one message: a snapshot of the
boundary where `Next` is not above it, else an append that describes the log from `Next` on. For the rest of its
leadership the sender's log has what the message describes. -/
theorem replication_describes (h : Reachable S s) (hn : n ∈ S.peers) {p : Peer S.app} (hp : (s.host n).vol = some p)
    {i : Input} (hi : s.Admits n i) :
    (∀ m ∈ (i.run p.raft).msgs, Raft.Carries m → ∃ c ∈ i.calls p.raft, Raft.Queues c m) ∧
    ∀ r f, (r,f) ∈ i.calls p.raft → r.state = .leader ∧ r.term = (i.run p.raft).term ∧
      ∃ pr m, r.prs.lookup f = some pr ∧ (r.sendAppend f).msgs = r.msgs ++ [m] ∧ m ∈ (i.run p.raft).msgs ∧
        m.dest = f ∧ m.sender = n ∧ m.term = r.term ∧
        (if pr.next ≤ r.raftLog.base.index then Ships r.raftLog m
          else Describes r.raftLog r.cfg.maxEntriesPerAppend pr.next m) ∧
        ∀ flush s', Run S (s.next S (.input n i flush)) s' → ∀ p', (s'.host n).vol = some p' →
          p'.raft.state = .leader → p'.raft.term = r.term → StillIn p'.raft.raftLog m := by
  obtain ⟨H,hI⟩ := h.inv
  refine ⟨fun m hm hc => hI.carried hn hp hm hc,fun r f hc => ?_⟩
  have hin := hI.callsIn hn hp hi (r,f) hc
  have hsame := hin.same
  obtain ⟨hlog,pr,m,hpr,_,hq,hd,hsnd,ht,hm⟩ := hI.call hn hp hi hc
  refine ⟨hin.state,hsame.term.symm,pr,m,hpr,hq,hin.queued.subset (by rw [hq]; simp),hd,hsnd,ht,hm,
    fun flush s' hrun p' hp' hl' ht' => ?_⟩
  obtain ⟨H₁,_,ha₁,_,_,hI₁⟩ := hI.inputAt hn hi flush hp
  obtain ⟨H₂,hx,hI₂⟩ := hI₁.run hrun
  have hr₁ := ha₁.ok.log.repr
  rw [hlog] at hr₁
  have hok₂ := ((hI₂.hosts n hn).peer p' hp').core.ok
  have hgrow : H₁.log n <+: H₂.log n := by
    rw [(ha₁.ok.leads (hsame.state.trans hin.state)).log,(hok₂.leads hl').log,ht',hsame.term]
    exact hx.lead _
  split at hm
  · exact hm.stillIn hr₁ hok₂.log.repr hgrow
  · exact hm.stillIn hr₁ (by omega) hok₂.log.repr hgrow

theorem replication_describes_settled : ∃ p r, (settled.host 1).vol = some p ∧ (r,2) ∈ proposal.calls p.raft ∧
    ∃ pr m, r.prs.lookup 2 = some pr ∧ (r.sendAppend 2).msgs = r.msgs ++ [m] := by
  have h : (settled.host 1).vol.any (fun p => (proposal.calls p.raft).any fun c => c.2 = 2) = true := by
    decide +kernel
  obtain ⟨p,hp,hc⟩ := (Option.any_eq_true _ _).mp h
  obtain ⟨⟨r,f⟩,hmem,hf⟩ := List.any_eq_true.mp hc
  obtain rfl : f = 2 := of_decide_eq_true hf
  obtain ⟨_,_,pr,m,hpr,hm,_⟩ :=
    (replication_describes settled_reachable (by decide) hp (proposal_admitted _ rfl)).2 r 2 hmem
  exact ⟨p,r,hp,hmem,pr,m,hpr,hm⟩

end Parallax.Cluster
