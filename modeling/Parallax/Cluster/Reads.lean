import Parallax.Cluster.Play
import Parallax.Raft.Asking

/-! Reads through the leader. Heartbeats carry the contexts of the reads a leader was asked
for, and answers repeat them, so an answer to a context first used at some moment was given
after that moment. -/
namespace Parallax.Cluster
open Consensus Consensus.History
variable {S : Setup} {H : Hist} {s : State S.app} {n : Nat}

/-- Node `n` was handed a read with context `c` while in term `t`. -/
def Asked (os : List Obs) (n t : Nat) (c : Bytes) : Prop :=
  Handed os n fun m r => m.type = .readIndex ∧ m.context = c ∧ r.term = t

instance (os : List Obs) (n t : Nat) (c : Bytes) : Decidable (Asked os n t c) :=
  inferInstanceAs (Decidable (Handed os n _))

theorem Asked.mono {os os' : List Obs} {n t : Nat} {c : Bytes} (h : Asked os n t c) (hs : os ⊆ os') :
    Asked os' n t c := Handed.mono h hs

theorem Ok.gate {r : Raft} (h : Ok S H n r) :
    r.committedEntryInCurrentTerm = true ↔ termAt (H.log n) r.raftLog.committed = r.term := by
  unfold Raft.committedEntryInCurrentTerm
  rw [h.log.repr.term_eq (h.log.base_le.trans h.log.applied_le)]
  simp

theorem Ok.gateKept {r : Raft} (h : Ok S H n r) : Raft.GateKept r := by
  intro es hg
  rw [h.gate]
  cases es with
  | nil =>
    rw [← h.gate]
    exact hg
  | cons e es =>
    have hidx := stampEntries_indexed r.term (H.log n).length (e :: es)
    rw [h.log.repr.lastIndex] at hg
    obtain ⟨hrep,_,hsnap⟩ := h.log.repr.append h.log.repr.le le_rfl hidx (by simp [Raft.stampEntries])
    have hbase : (r.raftLog.append (Raft.stampEntries r.term (H.log n).length (e :: es))).base = r.raftLog.base := by
      unfold RaftLog.base
      rw [hsnap,RaftLog.append_storage]
    unfold Raft.committedEntryInCurrentTerm at hg
    rw [RaftLog.append_committed,hrep.term_eq (by rw [hbase]; exact h.log.base_le.trans h.log.applied_le),
      List.take_length,termAt_of_isPrefix (List.prefix_append _ _) h.log.commit_le] at hg
    simpa using hg

theorem At.high {r : Raft} (h : At S H n r) (hl : r.state = .leader) (hg : r.committedEntryInCurrentTerm = true)
    {p : List Entry} (hp : H.CommittedBy r.term p) : p.length ≤ r.raftLog.committed := by
  have hlead := h.ok.leads hl
  have hterm := h.ok.gate.mp hg
  have hpos : 0 < r.term := h.good.elected_pos hlead.elected
  obtain ⟨k,hk⟩ : ∃ k, r.raftLog.committed = k + 1 := by
    refine ⟨r.raftLog.committed - 1,?_⟩
    have : r.raftLog.committed ≠ 0 := fun h0 => by rw [h0,termAt_zero] at hterm; omega
    omega
  have hle := h.ok.log.commit_le
  rw [hk] at hterm hle
  obtain ⟨e,he⟩ : ∃ e, (H.log n)[k]? = some e := ⟨_,List.getElem?_eq_getElem hle⟩
  have htake : (H.log n).take k ++ [e] <+: H.lead r.term := by
    have hsucc : (H.log n).take (k + 1) = (H.log n).take k ++ [e] := by
      rw [List.take_add_one,he]
      rfl
    rw [← hlead.log,← hsucc]
    exact List.take_prefix _ _
  refine hp.length_le h.good.inv hlead.elected.mem_terms (h.ok.com hl) htake ?_ ?_
  · rw [List.length_take,min_eq_left (by omega),hk]
  · rwa [termAt_succ_of_getElem? he] at hterm

theorem Inv.asking (hI : Inv S s H) (hn : n ∈ S.peers) {p : Peer S.app} (hp : (s.host n).vol = some p)
    {i : Input} (hi : s.Admits n i) (hl : (i.run p.raft).state = .leader) {G : Gauge}
    (h : p.raft.state = .leader → Raft.Asking G p.raft)
    (hask : ∀ m, i.message? = some m → m.type = .readIndex → G.asked m.context ∧ ∀ c, G.fresh c → G.fresh m.context)
    (hack : p.raft.state = .leader → ∀ m, i.message? = some m → m.type = .heartbeatResp →
      m.term = p.raft.term → m.context ≠ [] → G.fresh m.context → G.clean m.sender)
    (hid : G.clean n) (hh : Raft.Gated G (i.run p.raft)) : Raft.Asking G (i.run p.raft) := by
  have hpk := (hI.hosts n hn).peer p hp
  by_cases hl₀ : p.raft.state = .leader
  · rw [← hpk.core.ok.id] at hid
    cases i with
    | tick => exact (h hl₀).tick hl₀
    | step m =>
      exact (h hl₀).step hl₀ hid (hI.term_pos hi) hpk.core.ok.gateKept hl hh (hask m rfl) (hack hl₀ m rfl)
  have hpost := hI.posts hn hp hi
  obtain ⟨h1,h2⟩ := hpost.new hl₀ hl
  exact .fresh h1 h2 ((hpost.quiet (.inl hl₀)).trans hpk.reads)

/-- A gauge that only knows which reads were asked for. -/
def Gauge.plain (asked : Bytes → Prop) : Gauge :=
  { asked := asked, fresh := fun _ => False, high := fun _ => True, clean := fun _ => True }

/-- Every context in a leader's hands or on the network was asked for at that leader. -/
structure Sourced (S : Setup) (s : State S.app) : Prop where
  core : ∀ n ∈ S.peers, ∀ p, (s.host n).vol = some p → p.raft.state = .leader →
    Raft.Asking (Gauge.plain (Asked s.hist n p.raft.term)) p.raft
  beat : ∀ m ∈ s.net, m.type = .heartbeat → m.context = [] ∨ Asked s.hist m.sender m.term m.context
  resp : ∀ m ∈ s.net, m.type = .heartbeatResp → m.context = [] ∨ Asked s.hist m.dest m.term m.context

private theorem asking_plain_mono {os os' : List Obs} {t : Nat} {r : Raft} (h : Raft.Asking (Gauge.plain (Asked os n t)) r)
    (hs : os ⊆ os') : Raft.Asking (Gauge.plain (Asked os' n t)) r :=
  h.mono (fun _ ha => ha.mono hs) fun _ _ hf => hf

/-- What an input leaves in the hands of a node was asked for. -/
theorem Sourced.input (h : Sourced S s) (hI : Inv S s H) (hn : n ∈ S.peers) {p : Peer S.app}
    (hp : (s.host n).vol = some p) {i : Input} (hi : s.Admits n i) (hl : (i.run p.raft).state = .leader) :
    Raft.Asking (Gauge.plain (Asked (.stepped n (some i) (i.run p.raft) :: s.hist) n (i.run p.raft).term))
      (i.run p.raft) := by
  refine hI.asking hn hp hi hl (fun hl₀ => ?_) (fun m hm ht => ⟨?_,fun _ hf => hf⟩) (fun _ _ _ _ _ _ _ => trivial)
    trivial fun _ => trivial
  · rw [(hI.role hi p.raft).leader_term hl₀ hl]
    exact asking_plain_mono (h.core n hn p hp hl₀) (List.subset_cons_self _ _)
  · rw [Input.eq_step hm]
    exact ⟨m,_,List.mem_cons_self,ht,rfl,rfl⟩

theorem Sourced.act (h : Sourced S s) (n : Nat) (hst : Host S.app) (ms : List Message) (os : List Obs)
    (hcore : ∀ p, hst.vol = some p → p.raft.state = .leader →
      Raft.Asking (Gauge.plain (Asked (os ++ s.hist) n p.raft.term)) p.raft)
    (hbeat : ∀ m ∈ ms, m.type = .heartbeat → m.context = [] ∨ Asked (os ++ s.hist) m.sender m.term m.context)
    (hresp : ∀ m ∈ ms, m.type = .heartbeatResp → m.context = [] ∨ Asked (os ++ s.hist) m.dest m.term m.context) :
    Sourced S { s.setHost n hst with net := ms ++ s.net, hist := os ++ s.hist } where
  core q hq p hp hl := by
    by_cases hqn : q = n
    · subst hqn
      exact hcore p (by simpa [State.setHost] using hp) hl
    · exact asking_plain_mono (h.core q hq p (by simpa [State.setHost,hqn] using hp) hl)
        (List.subset_append_right _ _)
  beat m hm ht := by
    rcases List.mem_append.mp hm with hm | hm
    · exact hbeat m hm ht
    · exact (h.beat m hm ht).imp_right fun h => h.mono (List.subset_append_right _ _)
  resp m hm ht := by
    rcases List.mem_append.mp hm with hm | hm
    · exact hresp m hm ht
    · exact (h.resp m hm ht).imp_right fun h => h.mono (List.subset_append_right _ _)

/-- Draining or compacting the log does not move the gate. -/
theorem asking_relog {G : Gauge} {r r' : Raft} (h : Raft.Asking G r) (ho : Ok S H n r) (ho' : Ok S H n r')
    (hro : r'.readOnly = r.readOnly) (hw : r'.pendingReadIndexMessages = r.pendingReadIndexMessages)
    (hs : r'.readStates ⊆ r.readStates) (ht : r'.term = r.term)
    (hc : r'.raftLog.committed = r.raftLog.committed) : Raft.Asking G r' := by
  refine h.transfer hro hw hs (ho'.peers.length_eq.trans ho.peers.length_eq.symm) fun hg => ?_
  rw [ho'.gate,hc,ht] at hg
  exact ho.gate.mpr hg

theorem asking_drained {G : Gauge} {r r' : Raft} (h : Raft.Asking G r) (ho : Ok S H n r) (ho' : Ok S H n r')
    (hd : Drained r r') : Raft.Asking G r' := by
  obtain ⟨l,hst,rfl,hc⟩ := hd
  exact asking_relog h ho ho' rfl rfl (List.nil_subset _) rfl hc

theorem Sourced.next {H' : Hist} {e : Event} {s' : State S.app} (h : Sourced S s) (hI : Inv S s H)
    (hch : Change S H H' s e s') (hI' : Inv S s' H') : Sourced S s' := by
  cases hch with
  | idle _ hs => exact hs ▸ h
  | @ran n i p p' hst os he hn hi hp hf hr hp' hdr hd hos hs =>
    have hpost := hI.posts hn hp hi
    have hsub : Obs.stepped n (some i) (i.run p.raft) :: s.hist ⊆ (os ++ [.stepped n (some i) (i.run p.raft)]) ++ s.hist := by
      rw [List.append_assoc]
      exact List.subset_append_right _ _
    have hask := fun hl => asking_plain_mono (h.input hI hn hp hi hl) hsub
    have hok' : Ok S H' n p'.raft := ((hI'.hosts n hn).peer p' (by rw [hs]; simpa [State.setHost] using hp')).core.ok
    have hstate : p'.raft.state = (i.run p.raft).state ∧ p'.raft.term = (i.run p.raft).term := by
      obtain ⟨l,hst',hr',_⟩ := hdr
      rw [hr']
      exact ⟨rfl,rfl⟩
    rw [hs,List.append_cons]
    refine h.act n hst _ _ (fun q hq hl => ?_) (fun m hm ht => ?_) fun m hm ht => ?_
    · obtain rfl := Option.some.inj (hp'.symm.trans hq)
      rw [hstate.2]
      exact asking_drained (hask (hstate.1 ▸ hl)) hr.ok hok' hdr
    · obtain ⟨hl,_,hterm,hc⟩ := hpost.leader m hm (.inr (.inl ht))
      rw [(hr.ok.msgs m hm).2,hterm]
      refine (hc ht).imp_right fun hq => ?_
      obtain ⟨rs,hrs⟩ := Option.isSome_iff_exists.mp (((hask hl).wf.mem _).mp hq)
      exact ((hask hl).status _ rs hrs).1
    refine (hpost.resp m hm ht).elim .inl ?_
    rintro ⟨m₀,hm₀,ht₀,hc,hdst,hterm,_⟩
    rw [hc,hdst,hterm]
    exact (h.beat m₀ (hi.mem hm₀ (by simp [ht₀]) (by simp [ht₀])).1 ht₀).imp_right fun h =>
      h.mono (List.subset_append_right _ _)
  | fell _ _ _ hs =>
    rw [hs]
    exact h.act _ _ [] [] (fun _ hp => by cases hp) (by simp) (by simp)
  | died _ _ _ _ _ _ _ _ _ _ hs =>
    rw [hs,List.append_cons]
    exact h.act _ _ [] _ (fun _ hp => by cases hp) (by simp) (by simp)
  | @started n rand p _ _ _ _ hp hs =>
    rw [hs]
    refine h.act _ _ [] [_] (fun q hq hl => ?_) (by simp) (by simp)
    obtain rfl := Option.some.inj hq
    rw [hp,(newRaft_role _ _ _).2.1] at hl
    cases hl
  | @compacted n hst _ hn hH _ hv hs =>
    rw [hs]
    refine h.act _ _ [] [] (fun q hq hl => ?_) (by simp) (by simp)
    have hok' := ((hI'.hosts n hn).peer q (by rw [hs]; simpa [State.setHost] using hq)).core.ok
    obtain ⟨p,st,hp,rfl⟩ := hv q hq
    rw [hH] at hok'
    exact asking_relog (h.core n hn p hp hl) ((hI.hosts n hn).peer p hp).core.ok hok' rfl rfl (fun _ h => h) rfl rfl

/-- How reads of the leader `n` of term `T` are judged once the cluster had the history `H₁`
and the records `os₁`: of interest are contexts not asked for by then; their index must cover
what was committed up to `T`, and who confirms them must not have voted beyond `T`. -/
def readGauge (S : Setup) (H₁ : Hist) (os₁ : List Obs) (n T : Nat) (os : List Obs) : Gauge where
  asked := Asked os n T
  fresh c := ¬ Asked os₁ n T c
  high i := ∀ p, H₁.CommittedBy T p → p.length ≤ i
  clean v := v ∈ S.peers ∧ ∀ t, T < t → H₁.ballot v t = none

/-- What holds from that moment on. -/
structure Watching (S : Setup) (H₁ : Hist) (os₁ : List Obs) (n T : Nat) (s : State S.app) : Prop where
  core : ∀ p, (s.host n).vol = some p → p.raft.state = .leader → p.raft.term = T →
    Raft.Asking (readGauge S H₁ os₁ n T s.hist) p.raft
  resp : ∀ m ∈ s.net, m.type = .heartbeatResp → m.dest = n → m.term = T → m.context ≠ [] →
    ¬ Asked os₁ n T m.context → (readGauge S H₁ os₁ n T s.hist).clean m.sender

section watching
variable {H₁ : Hist} {os₁ : List Obs} {T : Nat}

theorem asking_read_mono {os os' : List Obs} {r : Raft} (h : Raft.Asking (readGauge S H₁ os₁ n T os) r)
    (hs : os ⊆ os') : Raft.Asking (readGauge S H₁ os₁ n T os') r where
  wf := h.wf
  status c rs hrs := ⟨(h.status c rs hrs).1.mono hs,(h.status c rs hrs).2⟩
  waiting m hm := (h.waiting m hm).mono hs
  order := h.order
  released rs hrs := ⟨(h.released rs hrs).1.mono hs,(h.released rs hrs).2⟩
  gate := h.gate

/-- At the moment itself nothing asked for is of interest yet. -/
theorem Sourced.watching (h : Sourced S s) (hn : n ∈ S.peers) : Watching S H₁ s.hist n T s where
  core p hp hl ht := by
    refine (h.core n hn p hp hl).mono (fun _ ha => ht ▸ ha) fun c ha hf => hf ?_
    rw [← ht]
    exact ha
  resp m hm ht hd hT hne hf := by
    refine absurd ((h.resp m hm ht).resolve_left hne) ?_
    rw [hd,hT]
    exact hf

theorem At.clean {H' : Hist} {v : Nat} {r : Raft} (hr : At S H' v r) (ht : r.term = T) (hx : Ext H₁ H')
    (os : List Obs) : (readGauge S H₁ os₁ n T os).clean v := by
  refine ⟨hr.mem,fun t hlt => ?_⟩
  have hnone := hr.ok.durable.no_ballot (t := t) (by omega)
  cases hb : H₁.ballot v t with
  | none => rfl
  | some b =>
    rw [hx.ballot v t b hb] at hnone
    cases hnone

theorem At.gated {H' : Hist} {r : Raft} (hr : At S H' n r) (hl : r.state = .leader) (ht : r.term = T)
    (hx : Ext H₁ H') (os : List Obs) : Raft.Gated (readGauge S H₁ os₁ n T os) r :=
  fun hg _ hp => hr.high hl hg (ht ▸ hp.ext hx)

theorem Watching.input (h : Watching S H₁ os₁ n T s) (hI : Inv S s H) (hn : n ∈ S.peers)
    {p : Peer S.app} (hp : (s.host n).vol = some p) {i : Input} (hi : s.Admits n i) {H' : Hist}
    (hr : At S H' n (i.run p.raft)) (hx : Ext H₁ H')
    (hnew : ∀ m, i.message? = some m → m.type = .readIndex → ¬ Asked os₁ n T m.context)
    (hl : (i.run p.raft).state = .leader) (ht : (i.run p.raft).term = T) :
    Raft.Asking (readGauge S H₁ os₁ n T (.stepped n (some i) (i.run p.raft) :: s.hist)) (i.run p.raft) := by
  have hterm := fun hl₀ => ((hI.role hi p.raft).leader_term hl₀ hl).symm.trans ht
  refine hI.asking hn hp hi hl (fun hl₀ => ?_) (fun m hm hty => ⟨?_,fun _ _ => hnew m hm hty⟩)
    (fun hl₀ m hm hty hmt hne hf => ?_) (hr.clean ht hx _) (hr.gated hl ht hx _)
  · exact asking_read_mono (h.core p hp hl₀ (hterm hl₀)) (List.subset_cons_self _ _)
  · rw [Input.eq_step hm] at ht ⊢
    exact ⟨m,_,List.mem_cons_self,hty,rfl,ht⟩
  · obtain ⟨hmem,hdst⟩ := hi.mem hm (by simp [hty]) (by simp [hty])
    exact h.resp m hmem hty hdst (hmt.trans (hterm hl₀)) hne hf

theorem Watching.act (h : Watching S H₁ os₁ n T s) (q : Nat) (hst : Host S.app) (ms : List Message) (os : List Obs)
    (hcore : q = n → ∀ p, hst.vol = some p → p.raft.state = .leader → p.raft.term = T →
      Raft.Asking (readGauge S H₁ os₁ n T (os ++ s.hist)) p.raft)
    (hresp : ∀ m ∈ ms, m.type = .heartbeatResp → m.term = T → m.context ≠ [] →
      (readGauge S H₁ os₁ n T (os ++ s.hist)).clean m.sender) :
    Watching S H₁ os₁ n T { s.setHost q hst with net := ms ++ s.net, hist := os ++ s.hist } where
  core p hp hl ht := by
    by_cases hqn : n = q
    · subst hqn
      exact hcore rfl p (by simpa [State.setHost] using hp) hl ht
    · exact asking_read_mono (h.core p (by simpa [State.setHost,hqn] using hp) hl ht) (List.subset_append_right _ _)
  resp m hm hty hd ht hne hf := by
    rcases List.mem_append.mp hm with hm | hm
    · exact hresp m hm hty ht hne
    · exact h.resp m hm hty hd ht hne hf

theorem ready_readStates {r : Raft} {rd : Ready} (h : r.ready = .ok rd) : rd.readStates = r.readStates := by
  unfold Raft.ready at h
  split at h
  · cases h
  · obtain rfl := Except.ok.inj h
    rfl

/-- The records `os` hand `n` no read, in term `T`, with a context it was asked for in that term before. -/
def NoneOld (os₁ : List Obs) (n T : Nat) (os : List Obs) : Prop :=
  ∀ m r, .stepped n (some (.step m)) r ∈ os → m.type = .readIndex → r.term = T → ¬ Asked os₁ n T m.context

theorem NoneOld.mono {os os' : List Obs} (h : NoneOld os₁ n T os') (hs : os ⊆ os') : NoneOld os₁ n T os :=
  fun m r hm => h m r (hs hm)

theorem Watching.keep {H' : Hist} {e : Event} {s' : State S.app} (h : Watching S H₁ os₁ n T s) (hI : Inv S s H)
    (hx : Ext H₁ H) (hch : Change S H H' s e s') (hI' : Inv S s' H')
    (hask : ∀ i p H₂, e.input? = some (n,i) → n ∈ S.peers → (s.host n).vol = some p → s.Admits n i →
      At S H₂ n (i.run p.raft) → Ext H H₂ → (i.run p.raft).state = .leader → (i.run p.raft).term = T →
      Raft.Asking (readGauge S H₁ os₁ n T (.stepped n (some i) (i.run p.raft) :: s.hist)) (i.run p.raft)) :
    Watching S H₁ os₁ n T s' := by
  cases hch with
  | idle _ hs => exact hs ▸ h
  | @ran q i p p' hst os he hq hi hp hf hr hp' hdr hd hos hs =>
    have hsub : Obs.stepped q (some i) (i.run p.raft) :: s.hist ⊆ (os ++ [.stepped q (some i) (i.run p.raft)]) ++ s.hist := by
      rw [List.append_assoc]
      exact List.subset_append_right _ _
    rw [List.append_cons] at hs
    have hok' : Ok S H' q p'.raft := ((hI'.hosts q hq).peer p' (by rw [hs]; simpa [State.setHost] using hp')).core.ok
    rw [hs]
    refine h.act q hst _ _ ?_ fun m hm hty ht hne => ?_
    · rintro rfl p₂ hp₂ hl ht
      obtain rfl := Option.some.inj (hp'.symm.trans hp₂)
      have hstate : p'.raft.state = (i.run p.raft).state ∧ p'.raft.term = (i.run p.raft).term := by
        obtain ⟨l,hst',hr',_⟩ := hdr
        rw [hr']
        exact ⟨rfl,rfl⟩
      have hask' := hask i p H' he hq hp hi hr hf.ext (hstate.1 ▸ hl) (hstate.2 ▸ ht)
      exact asking_drained (asking_read_mono hask' hsub) hr.ok hok' hdr
    rw [(hr.ok.msgs m hm).2]
    obtain ⟨m₀,_,_,_,_,hmt,hrt⟩ := ((hI.posts hq hp hi).resp m hm hty).resolve_left hne
    exact hr.clean (hrt.trans (hmt.symm.trans ht)) (hx.trans hf.ext) _
  | fell _ _ _ hs =>
    rw [hs]
    exact h.act _ _ [] [] (fun _ _ hp => by cases hp) (by simp)
  | died _ _ _ _ _ _ _ _ _ _ hs =>
    rw [hs,List.append_cons]
    exact h.act _ _ [] _ (fun _ _ hp => by cases hp) (by simp)
  | @started q rand p _ _ _ _ hp hs =>
    rw [hs]
    refine h.act q _ [] [_] (fun _ p₂ hp₂ hl => ?_) (by simp)
    obtain rfl := Option.some.inj hp₂
    rw [hp,(newRaft_role _ _ _).2.1] at hl
    cases hl
  | @compacted q hst _ hq hH _ hv hs =>
    rw [hs]
    refine h.act q hst [] [] (fun hqn p₂ hp₂ hl ht => ?_) (by simp)
    have hok' := ((hI'.hosts q hq).peer p₂ (by rw [hs]; simpa [State.setHost] using hp₂)).core.ok
    obtain ⟨p,st,hp,rfl⟩ := hv p₂ hp₂
    subst hqn
    rw [hH] at hok'
    exact asking_relog (h.core p hp hl ht) ((hI.hosts q hq).peer p hp).core.ok hok' rfl rfl (fun _ h => h) rfl rfl

theorem Change.recorded {H' : Hist} {e : Event} {s' : State S.app} (hch : Change S H H' s e s') {os : List Obs}
    (hos : s'.hist = os ++ s.hist) {i : Input} (he : e.input? = some (n,i)) {p : Peer S.app}
    (hp : (s.host n).vol = some p) : s' = s ∨ .stepped n (some i) (i.run p.raft) ∈ os := by
  cases hch with
  | idle _ hs => exact .inl hs
  | ran he' _ _ hp' _ _ _ _ _ _ hs | died he' _ _ hp' _ _ _ _ _ _ hs =>
    obtain ⟨rfl,rfl⟩ := Prod.mk.inj (Option.some.inj (he.symm.trans he'))
    obtain rfl := Option.some.inj (hp.symm.trans hp')
    rw [hs,List.append_cons] at hos
    obtain rfl := List.append_cancel_right hos
    exact .inr (by simp)
  | fell he' | started he' | compacted he' =>
    rw [he'] at he
    cases he

/-- An event that asks node `n` for nothing old keeps the watch. -/
theorem Watching.next {H' : Hist} {e : Event} {s' : State S.app} (h : Watching S H₁ os₁ n T s) (hI : Inv S s H)
    (hx : Ext H₁ H) (hch : Change S H H' s e s') (hI' : Inv S s' H') {os : List Obs} (hos : s'.hist = os ++ s.hist)
    (hno : NoneOld os₁ n T os) : Watching S H₁ os₁ n T s' := by
  by_cases hs : s' = s
  · exact hs ▸ h
  refine h.keep hI hx hch hI' fun i p H₂ he hn hp hi hr hx₂ hl ht => ?_
  have hin := (hch.recorded hos he hp).resolve_left hs
  refine h.input hI hn hp hi hr (hx.trans hx₂) (fun m hm hty => ?_) hl ht
  rw [Input.eq_step hm] at hin ht
  exact hno m _ hin hty ht

/-- The batches that an event adds to the records. -/
theorem Change.batches {H' : Hist} {e : Event} {s' : State S.app} (hch : Change S H H' s e s') {os : List Obs} (hos : s'.hist = os ++ s.hist) {rd : Ready}
    (ho : .drained n rd ∈ os) : n ∈ S.peers ∧ ∃ i p H₂, e.input? = some (n,i) ∧ s.Admits n i ∧
      (s.host n).vol = some p ∧ At S H₂ n (i.run p.raft) ∧ Ext H H₂ ∧ (i.run p.raft).ready = .ok rd ∧
      .stepped n (some i) (i.run p.raft) ∈ os := by
  cases hch with
  | idle _ hs | fell _ _ _ hs | compacted _ _ _ _ _ hs =>
    rw [hs] at hos
    obtain rfl := List.self_eq_append_left.mp hos
    cases ho
  | @ran q i p _ _ bs he hq hi hp hf hr _ _ _ hbs hs =>
    rw [hs,List.append_cons] at hos
    obtain rfl := List.append_cancel_right hos
    rcases hbs with ⟨rfl,_⟩ | ⟨rd',rfl,hrd⟩
    · simp at ho
    · obtain ⟨rfl,rfl⟩ : n = q ∧ rd = rd' := by simpa using ho
      exact ⟨hq,i,p,H',he,hi,hp,hr,hf.ext,hrd,by simp⟩
  | @died q i p _ bs H₁ he hq hi hp _ hf₁ hr _ _ hbs hs =>
    rw [hs,List.append_cons] at hos
    obtain rfl := List.append_cancel_right hos
    rcases hbs with rfl | ⟨rd',rfl,hrd⟩
    · simp at ho
    · obtain ⟨rfl,rfl⟩ : n = q ∧ rd = rd' := by simpa using ho
      exact ⟨hq,i,p,H₁,he,hi,hp,hr,hf₁.ext,hrd,by simp⟩
  | started _ _ _ _ _ hs =>
    rw [hs,← List.singleton_append] at hos
    obtain rfl := List.append_cancel_right hos
    cases List.mem_singleton.mp ho

theorem Watching.released {i : Input} {p : Peer S.app} (h : Watching S H₁ os₁ n (i.run p.raft).term s) (hI : Inv S s H)
    (hn : n ∈ S.peers) (hp : (s.host n).vol = some p) (hi : s.Admits n i) {H' : Hist} (hr : At S H' n (i.run p.raft))
    (hx : Ext H₁ H')
    (hnew : ∀ m, i.message? = some m → m.type = .readIndex → ¬ Asked os₁ n (i.run p.raft).term m.context)
    {rs : ReadState} (hrs : rs ∈ (i.run p.raft).readStates) {os : List Obs}
    (hos : Obs.stepped n (some i) (i.run p.raft) :: s.hist ⊆ os) :
    (readGauge S H₁ os₁ n (i.run p.raft).term os).Released S.peers.length rs := by
  by_cases hl : (i.run p.raft).state = .leader
  · have hrel := (h.input hI hn hp hi hr hx hnew hl rfl).released rs hrs
    rw [hr.ok.peers.length_eq] at hrel
    exact ⟨hrel.1.mono hos,hrel.2⟩
  · rw [(hI.posts hn hp hi).quiet (.inr hl),((hI.hosts n hn).peer p hp).reads] at hrs
    cases hrs

theorem Reachable.sourced (h : Reachable S s) : Sourced S s := by
  suffices hboth : (∃ H, Inv S s H) ∧ Sourced S s from hboth.2
  induction h with
  | init => exact ⟨⟨_,Inv.init S⟩,⟨fun _ _ _ hp => (nomatch hp),fun _ hm => (nomatch hm),fun _ hm => (nomatch hm)⟩⟩
  | step _ hstep ih =>
    obtain ⟨⟨H,hI⟩,hS⟩ := ih
    cases hstep with
    | mk e he =>
      obtain ⟨H',hch,hI'⟩ := hI.next he
      exact ⟨⟨H',hI'⟩,hS.next hI hch hI'⟩

theorem Inv.watch (hI : Inv S s H) (hS : Sourced S s) (hn : n ∈ S.peers) {s' : State S.app} (hr : Run S s s') :
    ∃ new, s'.hist = new ++ s.hist ∧ ∀ rd, .drained n rd ∈ new → ∀ rs ∈ rd.readStates, ∃ T,
      NoneOld s.hist n T new → (readGauge S H s.hist n T s'.hist).Released S.peers.length rs := by
  suffices hall : ∃ H' new, Ext H H' ∧ Inv S s' H' ∧ s'.hist = new ++ s.hist ∧
      (∀ T, NoneOld s.hist n T new → Watching S H s.hist n T s') ∧
      ∀ rd, .drained n rd ∈ new → ∀ rs ∈ rd.readStates, ∃ T,
        NoneOld s.hist n T new → (readGauge S H s.hist n T s'.hist).Released S.peers.length rs by
    obtain ⟨_,new,_,_,hhist,_,hrel⟩ := hall
    exact ⟨new,hhist,hrel⟩
  induction hr with
  | refl => exact ⟨H,[],Ext.refl H,hI,rfl,fun _ _ => hS.watching hn,fun _ hrd => by cases hrd⟩
  | tail _ hstep ih =>
    obtain ⟨H₁,new,hx,hI₁,hhist,hW,hrel⟩ := ih
    cases hstep with
    | mk e he =>
      obtain ⟨H₂,hch,hI₂⟩ := hI₁.next he
      obtain ⟨os,hos⟩ := hch.hist
      refine ⟨H₂,os ++ new,hx.trans hch.ext,hI₂,by rw [hos,hhist,List.append_assoc],fun T hno => ?_,fun rd hrd rs hrs => ?_⟩
      · exact (hW T (hno.mono (List.subset_append_right _ _))).next hI₁ hx hch hI₂ hos
          (hno.mono (List.subset_append_left _ _))
      rcases List.mem_append.mp hrd with hrd | hrd
      · obtain ⟨_,i,p,H₃,_,hadm,hp,hr,hx₃,hready,hin⟩ := hch.batches hos hrd
        rw [ready_readStates hready] at hrs
        refine ⟨(i.run p.raft).term,fun hno => ?_⟩
        refine (hW _ (hno.mono (List.subset_append_right _ _))).released hI₁ hn hp hadm hr (hx.trans hx₃)
          (fun m hm hty => ?_) hrs ?_
        · exact hno m _ (List.mem_append_left _ (by rwa [Input.eq_step hm] at hin)) hty (by rw [Input.eq_step hm])
        · rw [hos]
          exact List.cons_subset.mpr ⟨List.mem_append_left _ hin,List.subset_append_right _ _⟩
      obtain ⟨T,hT⟩ := hrel rd hrd rs hrs
      refine ⟨T,fun hno => ?_⟩
      have hgood := hT (hno.mono (List.subset_append_right _ _))
      exact ⟨hgood.1.mono (by rw [hos]; exact List.subset_append_right _ _),hgood.2⟩

end watching

theorem Inv.covers (hI : Inv S s H) {os₁ os : List Obs} {T : Nat} {rs : ReadState}
    (hrel : (readGauge S H os₁ n T os).Released S.peers.length rs) (hf : ¬ Asked os₁ n T rs.requestCtx)
    {t : Nat} {p : List Entry} (hp : H.CommittedBy t p) : p.length ≤ rs.index := by
  obtain ⟨hh,A,hA,hc⟩ := hrel.2 hf
  have hQ : S.quorums.IsQuorum A := ⟨fun v hv => List.mem_toFinset.mpr (hc v hv).1,hA⟩
  exact hh p (hI.good.inv.committedBy_of_quiet hQ (fun v hv => (hc v hv).2) hp)

/-- Node `n` was handed a read with context `c`. -/
def Used (os : List Obs) (n : Nat) (c : Bytes) : Prop := ∃ t, Asked os n t c

private theorem used_iff {os : List Obs} {c : Bytes} : Handed os n (fun m _ => m.type = .readIndex ∧ m.context = c) ↔
    Used os n c := by
  refine ⟨fun ⟨m,r,hr,ht,hc⟩ => ⟨_,m,r,hr,ht,hc,rfl⟩,fun ⟨_,m,r,hr,ht,hc,_⟩ => ⟨m,r,hr,ht,hc⟩⟩

instance (os : List Obs) (n : Nat) (c : Bytes) : Decidable (Used os n c) := decidable_of_iff _ used_iff

/-- A running node records the input, and then only batches. -/
theorem next_hist (s : State S.app) {p : Peer S.app} (hp : (s.host n).vol = some p) {e : Event} {i : Input}
    (he : e.input? = some (n,i)) : ∃ os, (s.next S e).hist = os ++ .stepped n (some i) (i.run p.raft) :: s.hist ∧
      ∀ o ∈ os, ∃ rd, o = .drained n rd := by
  cases e with
  | input n' i' flush =>
    obtain ⟨rfl,rfl⟩ : n' = n ∧ i' = i := by simpa [Event.input?] using he
    simp only [State.next,hp]
    split
    · exact ⟨[],rfl,by simp⟩
    refine ⟨_,rfl,fun o ho => ?_⟩
    obtain ⟨rd,_,rfl⟩ := List.mem_map.mp ho
    exact ⟨rd,rfl⟩
  | torn n' i' k =>
    obtain ⟨rfl,rfl⟩ : n' = n ∧ i' = i := by simpa [Event.input?] using he
    simp only [State.next,hp]
    exact ⟨[],rfl,by simp⟩
  | unsent n' i' =>
    obtain ⟨rfl,rfl⟩ : n' = n ∧ i' = i := by simpa [Event.input?] using he
    simp only [State.next,hp]
    split
    · exact ⟨[],rfl,by simp⟩
    split
    · exact ⟨[],rfl,by simp⟩
    · exact ⟨[_],rfl,by simp⟩
  | crash | restart | compact => cases he

theorem Event.enabled {s : State S.app} (hn : n ∈ S.peers) {e : Event} {i : Input} (he : e.input? = some (n,i))
    (hi : s.Admits n i) : s.Enabled S e := by
  cases e with
  | input n' i' flush | torn n' i' k | unsent n' i' =>
    obtain ⟨rfl,rfl⟩ : n' = n ∧ i' = i := by simpa [Event.input?] using he
    exact ⟨hn,hi⟩
  | crash | restart | compact => cases he

/-- A read with a new context is released at an index no smaller than any commit index reached
when it was stepped in, provided that the node is not asked again for a context it was asked for
before in the same term. -/
theorem readIndex_fresh {s₀ s₁ s₂ : State S.app} (h : Reachable S s₀) (h₀ : Run S s₀ s₁) {n : Nat}
    (hn : n ∈ S.peers) {p : Peer S.app} (hp : (s₁.host n).vol = some p) {m : Message} (hm : m.type = .readIndex)
    {e : Event} (he : e.input? = some (n,.step m)) (hnew : ¬ Used s₁.hist n m.context)
    (hrun : Run S (s₁.next S e) s₂) {os os' : List Obs} (hos : s₂.hist = os ++ (s₁.next S e).hist)
    (hlater : ∀ m' r, .stepped n (some (.step m')) r ∈ os → m'.type = .readIndex →
      ¬ Asked s₁.hist n r.term m'.context)
    (hos' : s₂.hist = os' ++ s₁.hist) {rd : Ready} (hrd : .drained n rd ∈ os') {rs : ReadState}
    (hrs : rs ∈ rd.readStates) (hc : rs.requestCtx = m.context) {q : Nat} (hq : q ∈ S.peers) {pq : Peer S.app}
    (hpq : (s₀.host q).vol = some pq) : pq.raft.raftLog.committed ≤ rs.index := by
  obtain ⟨H₀,hI₀⟩ := h.inv
  obtain ⟨H,hx,hI⟩ := hI₀.run h₀
  have hen : s₁.Enabled S e := Event.enabled hn he (.inr (.inl hm))
  obtain ⟨new,hhist,hrel⟩ := hI.watch (h.run h₀).sourced hn (.head (.mk s₁ e hen) hrun)
  obtain rfl : os' = new := List.append_cancel_right (hos'.symm.trans hhist)
  obtain ⟨T,hT⟩ := hrel rd hrd rs hrs
  obtain ⟨bs,hbs,hbatch⟩ := next_hist s₁ hp he
  have hsplit : os' = os ++ (bs ++ [.stepped n (some (.step m)) (Input.run p.raft (.step m))]) := by
    rw [← List.append_left_inj s₁.hist,← hos',hos,hbs]
    simp
  have hno : NoneOld s₁.hist n T os' := by
    intro m' r hmem hty hr ha
    rw [hsplit,List.mem_append,List.mem_append] at hmem
    rcases hmem with hmem | hmem | hmem
    · exact hlater m' r hmem hty (hr ▸ ha)
    · obtain ⟨rd',hrd'⟩ := hbatch _ hmem
      cases hrd'
    · have heq : m' = m ∧ r = Input.run p.raft (.step m) := by simpa using hmem
      exact hnew ⟨T,heq.1 ▸ ha⟩
  have hcom := (((hI₀.hosts q hq).peer pq hpq).core.ok.log.committed).ext hx
  have hlen : ((H₀.log q).take pq.raft.raftLog.committed).length = pq.raft.raftLog.committed := by
    rw [List.length_take,min_eq_left ((hI₀.hosts q hq).peer pq hpq).core.ok.log.commit_le]
  rw [← hlen]
  exact hI.covers (hT hno) (fun ha => hnew ⟨T,hc ▸ ha⟩) hcom

/-- Whether the records have node `n` release context `c` at index `i`. -/
def releasedIn (n : Nat) (c : Bytes) (i : Nat) (os : List Obs) : Bool :=
  os.any fun o => match o with
    | .drained n' rd => n' = n ∧ { index := i, requestCtx := c } ∈ rd.readStates
    | _ => false

theorem of_releasedIn {os : List Obs} {c : Bytes} {i : Nat} (h : releasedIn n c i os = true) :
    ∃ rd, .drained n rd ∈ os ∧ { index := i, requestCtx := c } ∈ rd.readStates := by
  obtain ⟨o,ho,hat⟩ := List.any_eq_true.mp h
  cases o with
  | stepped n' i' r => cases hat
  | drained n' rd =>
    obtain ⟨rfl,hin⟩ : n' = n ∧ _ := by simpa using hat
    exact ⟨rd,ho,hin⟩

/-- The request that the leader 1 is handed. -/
def asking (c : Bytes) : Event := .input 1 (.step { type := .readIndex, sender := 1, context := c }) false

/-- Member 1 leads term 1 and has its first entry committed; it has served a read with context
7, whose heartbeat member 3 answered late. Then member 2 is elected and commits a second entry. -/
def overtaking : List Move :=
  [.boot 1 0,.boot 2 0,.boot 3 1,.tick 1,.tick 1,.deliver .vote 1 2 0,.deliver .voteResp 2 1 0,
    .deliver .append 1 2 0,.deliver .append 1 3 0,.deliver .appendResp 2 1 0,.read 1 [7],.deliver .heartbeat 1 2 0,
    .deliver .heartbeatResp 2 1 0,.deliver .heartbeat 1 3 0,.tick 2,.tick 2,.tick 3,.tick 3,.deliver .vote 2 3 0,
    .deliver .voteResp 3 2 0,.deliver .append 2 3 0,.deliver .appendResp 3 2 0]

/-- The first moves only: member 1 leads, and nothing has been read yet. -/
def leading : State (trio false).app := State.play (trio false) {} (overtaking.take 10)

def overtaken : State (trio false).app := State.play (trio false) {} overtaking

/-- A new read at the leader of term 1, asked for a second time before member 2 confirms it. -/
def served : State (trio false).app := (leading.next _ (asking [8])).play (trio false)
  [.read 1 [8],.deliver .heartbeat 1 2 0,.deliver .heartbeatResp 2 1 0]

/-- A new read at the leader that was overtaken; it then reuses context 7, and the late answer
arrives. -/
def misled : State (trio false).app :=
  (overtaken.next _ (asking [8])).play (trio false) [.read 1 [7],.deliver .heartbeatResp 3 1 0]

private theorem asking_step (s : State (trio false).app) (c : Bytes) : Step (trio false) s (s.next _ (asking c)) :=
  .mk _ _ (Event.enabled (by decide) rfl (.inr (.inl rfl)))

theorem eq_take_of_append {α : Type} {l new old : List α} (h : l = new ++ old) :
    new = l.take (l.length - old.length) := by
  simp [h]

theorem readIndex_fresh_served : ∃ p rd, (leading.host 2).vol = some p ∧ .drained 1 rd ∈ served.hist ∧
    { index := 1, requestCtx := [8] } ∈ rd.readStates ∧ p.raft.raftLog.committed ≤ 1 := by
  obtain ⟨p,hp⟩ : ∃ p, (leading.host 2).vol = some p := Option.isSome_iff_exists.mp (by decide +kernel)
  obtain ⟨q,hq⟩ : ∃ q, (leading.host 1).vol = some q := Option.isSome_iff_exists.mp (by decide +kernel)
  have hreach : Reachable (trio false) leading := Reachable.play (by decide)
  obtain ⟨H,hI⟩ := hreach.inv
  obtain ⟨H',_,hI'⟩ := hI.run (.single (asking_step leading [8]))
  have hrun : Run (trio false) (leading.next _ (asking [8])) served := Run.play (by decide)
  obtain ⟨os,hos⟩ := hI'.run_hist hrun
  obtain ⟨os',hos'⟩ := hI.run_hist (.head (asking_step leading [8]) hrun)
  have hquiet : ¬ Handed (served.hist.take (served.hist.length - (leading.next _ (asking [8])).hist.length)) 1
      fun m _ => m.type = .readIndex ∧ m.context ≠ [8] := by decide +kernel
  have hnew : ¬ Used leading.hist 1 [8] := by decide +kernel
  have hrel : releasedIn 1 [8] 1 (served.hist.take (served.hist.length - leading.hist.length)) = true := by
    decide +kernel
  rw [← eq_take_of_append hos] at hquiet
  rw [← eq_take_of_append hos'] at hrel
  obtain ⟨rd,hrd,hrs⟩ := of_releasedIn hrel
  refine ⟨p,rd,hp,by rw [hos']; exact List.mem_append_left _ hrd,hrs,?_⟩
  refine readIndex_fresh hreach .refl (by decide) hq rfl rfl hnew hrun hos (fun m r hm hty ha => ?_) hos' hrd
    hrs rfl (by decide) hp
  have hctx : m.context = [8] := not_not.mp fun hne => hquiet ⟨m,r,hm,hty,hne⟩
  exact hnew ⟨_,hctx ▸ ha⟩

/-- A new context is not enough: behind the reused context 7 the read is released at index 1,
although member 2 had committed index 2 when it was asked for. -/
theorem readIndex_not_fresh : ¬ ∀ (S : Setup) (s₁ s₂ : State S.app), Reachable S s₁ → ∀ n ∈ S.peers, ∀ p,
    (s₁.host n).vol = some p → p.raft.state = .leader → ∀ m : Message, m.type = .readIndex → ∀ e : Event,
    e.input? = some (n,.step m) → ¬ Used s₁.hist n m.context → Run S (s₁.next S e) s₂ → ∀ os,
    s₂.hist = os ++ s₁.hist → ∀ rd, .drained n rd ∈ os → ∀ rs ∈ rd.readStates, rs.requestCtx = m.context →
    ∀ q ∈ S.peers, ∀ pq, (s₁.host q).vol = some pq → pq.raft.raftLog.committed ≤ rs.index := by
  intro hall
  have h1 : (overtaken.host 1).vol.any (fun p => p.raft.state = .leader) = true := by decide +kernel
  obtain ⟨p,hp,hl⟩ := (Option.any_eq_true _ _).mp h1
  have h2 : (overtaken.host 2).vol.any (fun p => p.raft.raftLog.committed = 2) = true := by decide +kernel
  obtain ⟨q,hq,hc⟩ := (Option.any_eq_true _ _).mp h2
  have hreach : Reachable (trio false) overtaken := Reachable.play (by decide)
  obtain ⟨H,hI⟩ := hreach.inv
  have hrun : Run (trio false) (overtaken.next _ (asking [8])) misled := Run.play (by decide)
  obtain ⟨os,hos⟩ := hI.run_hist (.head (asking_step overtaken [8]) hrun)
  have hrel : releasedIn 1 [8] 1 (misled.hist.take (misled.hist.length - overtaken.hist.length)) = true := by
    decide +kernel
  rw [← eq_take_of_append hos] at hrel
  obtain ⟨rd,hrd,hrs⟩ := of_releasedIn hrel
  have hnew : ¬ Used overtaken.hist 1 [8] := by decide +kernel
  have hle := hall (trio false) overtaken misled hreach 1 (by decide) p hp (by simpa using hl) _ rfl (asking [8]) rfl
    hnew hrun os hos rd hrd _ hrs rfl 2 (by decide) q hq
  have hc : q.raft.raftLog.committed = 2 := by simpa using hc
  rw [hc] at hle
  exact absurd hle (by decide)

end Parallax.Cluster
