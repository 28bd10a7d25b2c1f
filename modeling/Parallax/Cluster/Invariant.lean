import Parallax.Cluster.Torn

/-! Every reachable state of a cluster has a history that explains it, and along a run the
histories only grow. -/
namespace Parallax.Cluster
open Consensus Consensus.History
variable {S : Setup} {H H' : Hist} {s : State S.app} {n : Nat}

/-- `snap` is the boundary of `xs` at its index, with the application's state there. -/
def StandsFor (A : App) (snap : Snapshot) (xs : List Entry) : Prop :=
  snap.metadata.index ≤ xs.length ∧ snap.metadata.term = termAt xs snap.metadata.index ∧
  (0 < snap.metadata.index → snap.data = A.snapshot (applyAll A (xs.take snap.metadata.index)))

/-- What the batch hands to the application is part of the log `xs`. -/
def Surfaces (A : App) (rd : Ready) (xs : List Entry) : Prop :=
  (∀ e ∈ rd.committedEntries, 0 < e.index ∧ xs[e.index - 1]? = some e) ∧
  ∀ snap, rd.snapshot = some snap → StandsFor A snap xs

/-- What a recorded observation says about the history. -/
def ObsOK (S : Setup) (H : Hist) : Obs → Prop
  | .stepped n _ r => r.state = .leader → n ∈ S.peers ∧ (S.quorums.Solo ∨ H.Backed S.quorums r.term n)
  | .drained _ rd => ∃ t q, H.CommittedBy t q ∧ Surfaces S.app rd q

theorem StandsFor.mono {A : App} {snap : Snapshot} {xs ys : List Entry} (hp : xs <+: ys)
    (h : StandsFor A snap xs) : StandsFor A snap ys := by
  obtain ⟨h1,h2,h3⟩ := h
  refine ⟨h1.trans hp.length_le,by rw [termAt_of_isPrefix hp h1]; exact h2,?_⟩
  obtain ⟨zs,rfl⟩ := hp
  rw [List.take_append_of_le_length h1]
  exact h3

theorem SnapOK.standsFor {t : Nat} {snap : Snapshot} (h : SnapOK S H t snap) :
    ∃ p, H.CommittedBy t p ∧ p.length = snap.metadata.index ∧ StandsFor S.app snap p := by
  obtain ⟨p,hl,hc,ht,hd⟩ := h
  refine ⟨p,hc,hl,hl.symm.le,by rw [ht,hl],?_⟩
  rw [List.take_of_length_le hl.le]
  exact hd

theorem Surfaces.mono {A : App} {rd : Ready} {xs ys : List Entry} (hp : xs <+: ys)
    (h : Surfaces A rd xs) : Surfaces A rd ys := by
  refine ⟨fun e he => ⟨(h.1 e he).1,?_⟩,fun snap hs => (h.2 snap hs).mono hp⟩
  have hx := (h.1 e he).2
  obtain ⟨zs,rfl⟩ := hp
  rw [List.getElem?_append_left (List.getElem?_eq_some_iff.mp hx).1]
  exact hx

structure Inv (S : Setup) (s : State S.app) (H : Hist) : Prop where
  good : Good S H
  hosts : ∀ n ∈ S.peers, HostOK S H n (s.host n)
  net : ∀ m ∈ s.net, MsgOK S H m
  /-- A message, unless it only probes, is of a term its sender has stored. -/
  net_term : ∀ m ∈ s.net, m.type ≠ .preVote → m.type ≠ .preVoteResp →
    m.term ≤ (s.host m.sender).disk.hardState.term
  obs : ∀ o ∈ s.hist, ObsOK S H o

theorem ObsOK.ext {o : Obs} (h : ObsOK S H o) (hx : Ext H H') : ObsOK S H' o := by
  cases o with
  | stepped n i r => exact fun hs => ⟨(h hs).1,(h hs).2.imp_right (·.ext hx)⟩
  | drained n rd =>
    obtain ⟨t,q,hc,hq⟩ := h
    exact ⟨t,q,hc.ext hx,hq⟩

/-- A core that fits the history may be recorded. -/
theorem At.obs {r : Raft} (h : At S H n r) (i : Option Input) : ObsOK S H (.stepped n i r) :=
  fun hs => ⟨h.mem,.inr (h.good.inv.backed (h.ok.leads hs).elected)⟩

theorem At.obs_ready {r : Raft} (h : At S H n r) {rd : Ready} (hrd : r.ready = .ok rd) :
    ObsOK S H (.drained n rd) := by
  have hlog := h.ok.log
  have hr := hlog.readyOf hrd
  have hidx : Indexed ((H.log n).take r.raftLog.committed) :=
    hlog.repr.indexed.of_isPrefix (List.take_prefix _ _)
  refine ⟨_,_,hlog.committed,fun e he => ?_,fun snap hs => ?_⟩
  · rw [hr.committedEntries] at he
    obtain ⟨i,hi⟩ := List.mem_iff_getElem?.mp he
    rw [List.getElem?_drop] at hi
    rw [hidx _ e hi]
    exact ⟨Nat.succ_pos _,hi⟩
  have hpend : r.raftLog.unstable.snapshot = some snap := hr.snapshot.symm.trans hs
  obtain ⟨q,hqc,hql,hq⟩ := (hlog.pending snap hpend).1.standsFor
  have hb : snap.metadata.index ≤ r.raftLog.committed := by
    have := hlog.base_le.trans hlog.applied_le
    unfold RaftLog.base at this
    rwa [hpend] at this
  have hp := hlog.prefix_log h.good hqc (by rw [hql]; exact hb)
  refine hq.mono ?_
  rw [List.prefix_take_iff]
  exact ⟨hp,by rw [hql]; exact hb⟩

theorem PeerOK.obs_undone {d : Storage} {p : Peer S.app} (h : PeerOK S H n d p) {r' : Raft}
    (hf : Frame n H H') (ha : At S H' n r') (i : Option Input) : ObsOK S H (.stepped n i r') := by
  intro hs
  refine ⟨ha.mem,or_iff_not_imp_left.mpr fun hsolo => ?_⟩
  have hel := (ha.ok.leads hs).elected
  obtain ⟨l,hl⟩ := elected_cand_before ha.mem h.core.good hf ha.good hsolo hel
  obtain ⟨Q,hQ,hb⟩ := ha.good.inv.backed hel
  refine ⟨Q,hQ,fun q hq => ?_⟩
  by_cases hqn : q = n
  · subst hqn
    exact (h.core.ok.durable.cand _ l hl).2
  · rw [← hf.ballot q hqn]
    exact hb q hq

theorem Inv.act (h : Inv S s H) (hn : n ∈ S.peers) (hf : Frame n H H') (hg : Good S H') {hst : Host S.app}
    (hh : HostOK S H' n hst) (hterm : (s.host n).disk.hardState.term ≤ hst.disk.hardState.term)
    (ms : List Message) (hm : ∀ m ∈ ms, MsgOK S H' m ∧ m.sender = n)
    (hmt : ∀ m ∈ ms, m.type ≠ .preVote → m.type ≠ .preVoteResp → m.term ≤ hst.disk.hardState.term)
    (os : List Obs) (ho : ∀ o ∈ os, ObsOK S H' o) :
    Inv S { s.setHost n hst with net := ms ++ s.net, hist := os ++ s.hist } H' where
  good := hg
  hosts q hq := by
    by_cases hqn : q = n
    · subst hqn
      simpa [State.setHost] using hh
    · simpa [State.setHost,hqn] using (h.hosts q hq).frame hf hqn hn hq hg
  net m hmem := by
    rcases List.mem_append.mp hmem with hmem | hmem
    · exact (hm m hmem).1
    · exact (h.net m hmem).ext hf.ext
  net_term m hmem h1 h2 := by
    rcases List.mem_append.mp hmem with hmem | hmem
    · simpa [State.setHost,(hm m hmem).2] using hmt m hmem h1 h2
    have hle := h.net_term m hmem h1 h2
    by_cases hq : m.sender = n
    · rw [hq] at hle
      simpa [State.setHost,hq] using hle.trans hterm
    · simpa [State.setHost,hq] using hle
  obs o hmem := by
    rcases List.mem_append.mp hmem with hmem | hmem
    · exact ho o hmem
    · exact (h.obs o hmem).ext hf.ext

theorem Input.eq_step {i : Input} {m : Message} (h : i.message? = some m) : i = .step m := by
  cases i with
  | tick => cases h
  | step m' =>
    obtain rfl := Option.some.inj h
    rfl

theorem State.Admits.mem {A : App} {s : State A} {i : Input} (h : s.Admits n i) {m : Message}
    (hm : i.message? = some m) (hp : m.type ≠ .propose) (hr : m.type ≠ .readIndex) : m ∈ s.net ∧ m.dest = n := by
  obtain rfl := Input.eq_step hm
  exact (h.resolve_left hp).resolve_left hr

theorem Inv.term_pos (h : Inv S s H) {m : Message} (hi : s.Admits n (.step m)) :
    m.type = .propose ∨ m.type = .readIndex ∨ 0 < m.term :=
  hi.imp_right (Or.imp_right fun hm => (h.net m hm.1).term)

theorem Inv.input (h : Inv S s H) (hn : n ∈ S.peers) {p : Peer S.app} (hp : (s.host n).vol = some p)
    {i : Input} (hi : s.Admits n i) : ∃ H', Frame n H H' ∧ At S H' n (i.run p.raft) ∧
      p.raft.term ≤ (i.run p.raft).term ∧ Raft.LogEffect p.raft i.message? (i.run p.raft) ∧
      (Holds H n p.raft.term → Holds H' n (i.run p.raft).term) := by
  have hpk := (h.hosts n hn).peer p hp
  have hstep : ∀ m, i = .step m → m.type = .propose ∨ m.type = .readIndex ∨ (MsgOK S H m ∧ m.dest = n) := by
    rintro m rfl
    exact hi.imp_right (Or.imp_right fun hm => ⟨h.net m hm.1,hm.2⟩)
  obtain ⟨H',hf,ha,ht,hk⟩ := hpk.core.run hpk.clean hstep
  refine ⟨H',hf,ha,ht,?_,hk⟩
  cases i with
  | tick => exact p.raft.tick_effect
  | step m => exact p.raft.step_effect (h.term_pos hi)

theorem Inv.role (h : Inv S s H) {i : Input} (hi : s.Admits n i) (r : Raft) :
    Raft.RoleEffect r i.message? (i.run r) := by
  cases i with
  | tick => exact r.tick_role
  | step m => exact r.step_role (h.term_pos hi)

theorem Inv.posts (h : Inv S s H) (hn : n ∈ S.peers) {p : Peer S.app} (hp : (s.host n).vol = some p)
    {i : Input} (hi : s.Admits n i) : Raft.Posts p.raft i.message? (i.run p.raft) := by
  have hpk := (h.hosts n hn).peer p hp
  cases i with
  | tick => exact p.raft.tick_posts hpk.msgs hpk.core.ok.reads
  | step m => exact p.raft.step_posts hpk.msgs hpk.core.ok.reads (h.term_pos hi)

theorem HostOK.down {d : Storage} (h : DiskOK S H n d) : HostOK S H n ({ disk := d } : Host S.app) :=
  ⟨h,fun _ hp => by cases hp⟩

theorem Inv.init (S : Setup) : Inv S ({} : State S.app) History.empty where
  good := ⟨Inv.empty,fun _ => by intro i e he; simp [History.empty] at he,fun _ _ _ h => by cases h⟩
  hosts n _ := by
    refine HostOK.down ⟨⟨Nat.le_refl 0,rfl,rfl,by intro i e he; simp [History.empty] at he⟩,?_,?_,Nat.le_refl 0,?_⟩
    · exact ⟨[],rfl,CommittedBy.nil _,rfl,fun h => absurd h (Nat.lt_irrefl 0)⟩
    · exact
        { ballot := fun _ _ h => by cases h
          vote := fun h => absurd rfl h
          ack := fun t h => absurd h (Nat.lt_irrefl 0)
          cand := fun _ _ h => by cases h
          solo := fun _ => ⟨fun _ h => (by cases h),fun _ _ => List.nil_prefix⟩ }
    · exact CommittedBy.nil _
  net _ h := by cases h
  net_term _ h := by cases h
  obs _ h := by cases h

theorem newRaft_role (cfg : Config) (d : Storage) (rand : Nat → Nat) : (Raft.newRaft cfg d rand).cfg = cfg ∧
    (Raft.newRaft cfg d rand).state = .follower ∧ (Raft.newRaft cfg d rand).term = d.hardState.term := by
  rw [newRaft_shape]
  exact ⟨rfl,rfl,rfl⟩

/-- What an event does, with the histories that explain the states before and after. -/
inductive Change (S : Setup) (H H' : Hist) (s : State S.app) (e : Event) (s' : State S.app) : Prop
  /-- The node was not in a position to take the event. -/
  | idle (hH : H' = H) (hs : s' = s)
  | ran {n : Nat} {i : Input} {p p' : Peer S.app} {hst : Host S.app} {os : List Obs}
      (he : e.input? = some (n,i)) (hn : n ∈ S.peers) (hi : s.Admits n i) (hp : (s.host n).vol = some p)
      (hf : Frame n H H') (hr : At S H' n (i.run p.raft)) (hp' : hst.vol = some p')
      (hdr : Drained (i.run p.raft) p'.raft) (hd : hst.disk.hardState.term = (i.run p.raft).term)
      (hos : os = [] ∧ (i.run p.raft).msgs = [] ∧ (i.run p.raft).readStates = [] ∨
        ∃ rd, os = [.drained n rd] ∧ (i.run p.raft).ready = .ok rd)
      (hs : s' = { s.setHost n hst with
        net := (i.run p.raft).msgs ++ s.net, hist := os ++ .stepped n (some i) (i.run p.raft) :: s.hist })
      (hk : Holds H n p.raft.term → Holds H' n (i.run p.raft).term)
  /-- A crash between inputs. -/
  | fell {n : Nat} (he : e.input? = none) (hn : n ∈ S.peers) (hH : H' = H)
      (hs : s' = s.setHost n { s.host n with vol := none })
  /-- A crash within the drain of `i`; `H₁` explains the core that was lost. -/
  | died {n : Nat} {i : Input} {p : Peer S.app} {d : Storage} {os : List Obs} {H₁ : Hist}
      (he : e.input? = some (n,i)) (hn : n ∈ S.peers) (hi : s.Admits n i) (hp : (s.host n).vol = some p)
      (hf : Frame n H H') (hf₁ : Frame n H H₁) (hr : At S H₁ n (i.run p.raft))
      (hlo : (s.host n).disk.hardState.term ≤ d.hardState.term) (hhi : d.hardState.term ≤ (i.run p.raft).term)
      (hos : os = [] ∨ ∃ rd, os = [.drained n rd] ∧ (i.run p.raft).ready = .ok rd)
      (hs : s' = { s.setHost n { disk := d } with hist := os ++ .stepped n (some i) (i.run p.raft) :: s.hist })
      (hk : (∀ k, e ≠ .torn n i k) → Holds H n p.raft.term → Holds H' n d.hardState.term)
      (hlog : (i.run p.raft).raftLog.unstable.snapshot = none → H'.log n = H.log n ∨
        ∃ j, (j = 0 → (i.run p.raft).raftLog.unstable.entries = []) ∧
          H'.log n = (H.log n).take ((i.run p.raft).raftLog.unstable.offset - 1) ++
            (i.run p.raft).raftLog.unstable.entries.take j)
      (hpre : H'.log n = H.log n ∨ H'.log n <+: H₁.log n)
  | started {n : Nat} {rand : Nat → Nat} {p : Peer S.app} (he : e.input? = none) (hn : n ∈ S.peers)
      (hH : H' = H) (hv : (s.host n).vol = none) (hp : p.raft = Raft.newRaft (S.cfg n) (s.host n).disk rand)
      (hs : s' = { s.setHost n { s.host n with vol := some p } with hist := .stepped n none p.raft :: s.hist })
  | compacted {n : Nat} {hst : Host S.app} (he : e.input? = none) (hn : n ∈ S.peers) (hH : H' = H)
      (hd : hst.disk.hardState = (s.host n).disk.hardState)
      (hv : ∀ p', hst.vol = some p' → ∃ p st, (s.host n).vol = some p ∧
        p' = { p with raft := { p.raft with raftLog := { p.raft.raftLog with storage := st } } })
      (hs : s' = s.setHost n hst)

theorem Change.ext {e : Event} {s' : State S.app} (h : Change S H H' s e s') : Ext H H' := by
  cases h with
  | idle hH | fell _ _ hH | started _ _ hH | compacted _ _ hH =>
    rw [hH]
    exact Ext.refl H
  | ran _ _ _ _ hf | died _ _ _ _ hf => exact hf.ext

/-- The record of the past is only added to. -/
theorem Change.hist {e : Event} {s' : State S.app} (h : Change S H H' s e s') : ∃ os, s'.hist = os ++ s.hist := by
  cases h with
  | idle _ hs | fell _ _ _ hs | compacted _ _ _ _ _ hs => exact ⟨[],by rw [hs]; rfl⟩
  | ran _ _ _ _ _ _ _ _ _ _ hs | died _ _ _ _ _ _ _ _ _ _ hs => exact ⟨_,by rw [hs,List.append_cons]⟩
  | started _ _ _ _ _ hs => exact ⟨[_],by rw [hs]; rfl⟩

section events
variable (h : Inv S s H)
include h

theorem Inv.actQuiet (hn : n ∈ S.peers) (hst : Host S.app) (hh : HostOK S H n hst)
    (ht : (s.host n).disk.hardState.term ≤ hst.disk.hardState.term) (os : List Obs)
    (ho : ∀ o ∈ os, ObsOK S H o) : Inv S { s.setHost n hst with hist := os ++ s.hist } H :=
  h.act hn (Frame.refl n H) h.good hh ht [] (by simp) (by simp) os ho

/-- An input of a running node and its drain. -/
theorem Inv.inputAt (hn : n ∈ S.peers) {i : Input} (hi : s.Admits n i) (flush : Bool) {p : Peer S.app}
    (hv : (s.host n).vol = some p) : ∃ H', Frame n H H' ∧ At S H' n (i.run p.raft) ∧
      (∃ p', ((s.next S (.input n i flush)).host n).vol = some p' ∧ Drained (i.run p.raft) p'.raft) ∧
      Change S H H' s (.input n i flush) (s.next S (.input n i flush)) ∧
      Inv S (s.next S (.input n i flush)) H' := by
  simp only [State.next,hv]
  obtain ⟨H',hf,ha,ht,heff,hk⟩ := h.input hn hv hi
  have hpk := (h.hosts n hn).peer p hv
  obtain ⟨h',rds,hdrain,hh,⟨p',hp',_,hdr⟩,hrds⟩ := (hpk.undrained hf ha heff).drain flush
    { s.host n with vol := some { p with raft := i.run p.raft } } rfl rfl 2
  have hdt : h'.disk.hardState.term = (i.run p.raft).term := by
    rw [(hh.peer p' hp').disk.1]
    obtain ⟨l,hs,hr,_⟩ := hdr
    rw [hr]
  have hmono : (s.host n).disk.hardState.term ≤ h'.disk.hardState.term := by
    rw [hdt,hpk.disk.1]
    exact ht
  simp only [ha.ok.failed,Bool.false_eq_true,if_false,State.fuel,hdrain]
  have hsplit : ∀ os, os ++ Obs.stepped n (some i) (i.run p.raft) :: s.hist =
      (os ++ [Obs.stepped n (some i) (i.run p.raft)]) ++ s.hist := fun os => by simp
  have hvol : ∀ ms os, ∃ p', (({ s.setHost n h' with net := ms, hist := os } : State S.app).host n).vol = some p' ∧
      Drained (i.run p.raft) p'.raft := fun _ _ => ⟨p',by simpa [State.setHost] using hp',hdr⟩
  rcases hrds with ⟨rfl,hready⟩ | ⟨rd,rfl,hrd⟩
  · -- Nothing was ready, so nothing is in the outbox either.
    have hnil : (i.run p.raft).msgs = [] ∧ (i.run p.raft).readStates = [] := by
      simp only [Raft.hasReady,Bool.or_eq_false_iff,decide_eq_false_iff_not,gt_iff_lt,Nat.not_lt,Nat.le_zero,
        List.length_eq_zero_iff] at hready
      exact ⟨hready.1.1.1.1.1,hready.1.1.1.1.2⟩
    refine ⟨H',hf,ha,hvol _ _,.ran rfl hn hi hv hf ha hp' hdr hdt (.inl ⟨rfl,hnil⟩) ?_ hk,?_⟩
    · rw [hnil.1]
      rfl
    · rw [hsplit]
      exact h.act hn hf ha.good hh hmono [] (by simp) (by simp) [_] (by simpa using ha.obs _)
  have hnet : [rd].flatMap Ready.messages = (i.run p.raft).msgs := by
    simp [(ha.ok.log.readyOf hrd).messages]
  rw [hnet]
  refine ⟨H',hf,ha,hvol _ _,.ran rfl hn hi hv hf ha hp' hdr hdt (.inr ⟨rd,rfl,hrd⟩) rfl hk,?_⟩
  rw [hsplit]
  exact h.act hn hf ha.good hh hmono _ ha.ok.msgs (by rw [hdt]; exact ha.ok.msgs_term) [_,_]
    (by simpa using ⟨ha.obs_ready hrd,ha.obs _⟩)

theorem Inv.nextInput (hn : n ∈ S.peers) {i : Input} (hi : s.Admits n i) (flush : Bool) :
    ∃ H', Change S H H' s (.input n i flush) (s.next S (.input n i flush)) ∧
      Inv S (s.next S (.input n i flush)) H' := by
  cases hv : (s.host n).vol with
  | none =>
    have hid : s.next S (.input n i flush) = s := by simp only [State.next,hv]
    exact ⟨H,.idle rfl hid,hid.symm ▸ h⟩
  | some p =>
    obtain ⟨H',_,_,_,hch,hI⟩ := h.inputAt hn hi flush hv
    exact ⟨H',hch,hI⟩

theorem Inv.nextTorn (hn : n ∈ S.peers) {i : Input} (hi : s.Admits n i) (k : Nat) :
    ∃ H', Change S H H' s (.torn n i k) (s.next S (.torn n i k)) ∧ Inv S (s.next S (.torn n i k)) H' := by
  simp only [State.next]
  cases hv : (s.host n).vol with
  | none => exact ⟨H,.idle rfl rfl,h⟩
  | some p =>
    obtain ⟨H',hf,ha,ht,heff,hk⟩ := h.input hn hv hi
    have hmsg : ∀ m, i.message? = some m → m.type = .append → MsgOK S H m ∧ m.dest = n := by
      intro m hm hty
      have hmem := hi.mem hm (by simp [hty]) (by simp [hty])
      exact ⟨h.net m hmem.1,hmem.2⟩
    have hpk := (h.hosts n hn).peer p hv
    obtain ⟨rd,hrd,_⟩ := ha.ok.log.exists_ready
    simp only [hrd]
    cases hsn : rd.snapshot with
    | some _ =>
      exact ⟨H,.died rfl hn hi hv (Frame.refl n H) hf ha le_rfl (hpk.disk.1.trans_le ht) (.inl rfl) rfl
          (fun hno => absurd rfl (hno k)) (fun _ => .inl rfl) (.inl rfl),
        h.actQuiet hn _ (HostOK.down (h.hosts n hn).disk) le_rfl [_] (by simpa using hpk.obs_undone hf ha _)⟩
    | none =>
      obtain ⟨H₁,hf₁,hg₁,hd₁,hlo,hhi,hlog⟩ := hpk.torn (h.hosts n hn).disk hf ha ht heff hmsg hrd hsn k
      have hpre : H₁.log n = H.log n ∨ H₁.log n <+: H'.log n := by
        refine hlog.imp_right fun ⟨j,_,hj⟩ => ?_
        have hns := (ha.ok.log.readyOf hrd).snapshot.symm.trans hsn
        rw [hj,hpk.log_after hf ha heff.kept hns]
        exact List.prefix_append_right_inj _ |>.mpr (List.take_prefix _ _)
      exact ⟨H₁,.died rfl hn hi hv hf₁ hf ha hlo hhi (.inl rfl) rfl (fun hno => absurd rfl (hno k))
          (fun _ => hlog) hpre,
        h.act hn hf₁ hg₁ (HostOK.down hd₁) hlo [] (by simp) (by simp) [_]
          (by simpa using (hpk.obs_undone hf ha _).ext hf₁.ext)⟩

theorem Inv.nextUnsent (hn : n ∈ S.peers) {i : Input} (hi : s.Admits n i) :
    ∃ H', Change S H H' s (.unsent n i) (s.next S (.unsent n i)) ∧ Inv S (s.next S (.unsent n i)) H' := by
  simp only [State.next]
  cases hv : (s.host n).vol with
  | none => exact ⟨H,.idle rfl rfl,h⟩
  | some p =>
    obtain ⟨H',hf,ha,ht,heff,hk⟩ := h.input hn hv hi
    have hpk := (h.hosts n hn).peer p hv
    have hun := hpk.undrained hf ha heff
    obtain ⟨rd,hrd,_⟩ := ha.ok.log.exists_ready
    obtain ⟨st,hst,hrep,hsok,_,hhs⟩ := hun.persist hrd
    have hb := hun.persist_behind hrd hhs
    have hlo : (s.host n).disk.hardState.term ≤ st.hardState.term := by
      rw [hpk.disk.1,hb.1]
      exact ht
    simp only [hrd,hst]
    exact ⟨H',.died rfl hn hi hv hf hf ha hlo hb.1.le (.inr ⟨rd,rfl,hrd⟩) rfl
        (fun _ hh => by rw [hb.1]; exact hk hh) (fun hsn =>
          .inr ⟨_,List.length_eq_zero_iff.mp,by rw [List.take_length]; exact hpk.log_after hf ha heff.kept hsn⟩)
        (.inr List.prefix_rfl),
      h.act hn hf ha.good (HostOK.down (hun.core.disk hrep hsok hb)) hlo
        [] (by simp) (by simp) [_,_] (by simpa using ⟨ha.obs_ready hrd,ha.obs _⟩)⟩

theorem Inv.nextRestart (hn : n ∈ S.peers) (rand : Nat → Nat) :
    ∃ H', Change S H H' s (.restart n rand) (s.next S (.restart n rand)) ∧
      Inv S (s.next S (.restart n rand)) H' := by
  obtain ⟨p,hp,hpk,hraft⟩ := (h.hosts n hn).disk.start hn h.good rand
  simp only [State.next,hp]
  cases hv : (s.host n).vol with
  | some _ => exact ⟨H,.idle rfl rfl,h⟩
  | none =>
    refine ⟨H,.started rfl hn rfl hv hraft rfl,h.actQuiet hn { s.host n with vol := some p }
      ⟨(h.hosts n hn).disk,fun p' hp' => ?_⟩ le_rfl [.stepped n none p.raft] (by simpa using hpk.core.obs none)⟩
    obtain rfl := Option.some.inj hp'
    exact hpk

/-- Every event keeps the invariant under some extended history. -/
theorem Inv.next {e : Event} (he : s.Enabled S e) :
    ∃ H', Change S H H' s e (s.next S e) ∧ Inv S (s.next S e) H' := by
  cases e with
  | input n i flush => exact h.nextInput he.1 he.2 flush
  | torn n i k => exact h.nextTorn he.1 he.2 k
  | unsent n i => exact h.nextUnsent he.1 he.2
  | restart n rand => exact h.nextRestart he rand
  | crash n =>
    exact ⟨H,.fell rfl he rfl rfl,h.actQuiet he _ (HostOK.down (h.hosts n he).disk) le_rfl [] (by simp)⟩
  | compact n =>
    obtain ⟨hh,ht,hv⟩ := (h.hosts n he).compact
    exact ⟨H,.compacted rfl he rfl ht hv rfl,h.actQuiet he _ hh (by rw [ht]) [] (by simp)⟩

end events

/-- A run of the cluster. -/
abbrev Run (S : Setup) : State S.app → State S.app → Prop := Relation.ReflTransGen (Step S)

theorem Inv.runInduct {P : State S.app → Hist → Prop} (h : Inv S s H) (start : P s H)
    (step : ∀ {s H H' e}, Inv S s H → Change S H H' s e (s.next S e) → P s H → P (s.next S e) H')
    {s' : State S.app} (hr : Run S s s') : ∃ H', Ext H H' ∧ Inv S s' H' ∧ P s' H' := by
  induction hr with
  | refl => exact ⟨H,Ext.refl H,h,start⟩
  | tail _ hstep ih =>
    obtain ⟨H₁,hx,hI,hP⟩ := ih
    cases hstep with
    | mk e he =>
      obtain ⟨H₂,hc,hI'⟩ := hI.next he
      exact ⟨H₂,hx.trans hc.ext,hI',step hI hc hP⟩

theorem Inv.run (h : Inv S s H) {s' : State S.app} (hr : Run S s s') : ∃ H', Ext H H' ∧ Inv S s' H' := by
  obtain ⟨H',hx,hI,_⟩ := h.runInduct (P := fun _ _ => True) trivial (fun _ _ _ => trivial) hr
  exact ⟨H',hx,hI⟩

theorem Inv.run_hist (h : Inv S s H) {s' : State S.app} (hr : Run S s s') : ∃ new, s'.hist = new ++ s.hist := by
  obtain ⟨_,_,_,hP⟩ := h.runInduct (P := fun s' _ => ∃ new, s'.hist = new ++ s.hist) ⟨[],rfl⟩
    (fun _ hc ⟨new,hnew⟩ => by
      obtain ⟨os,hos⟩ := hc.hist
      exact ⟨os ++ new,by rw [hos,hnew,List.append_assoc]⟩) hr
  exact hP

theorem Reachable.runs (h : Reachable S s) : Run S {} s := by
  induction h with
  | init => exact .refl
  | step _ hstep ih => exact ih.tail hstep

theorem Reachable.inv (h : Reachable S s) : ∃ H, Inv S s H := by
  obtain ⟨H,_,hI⟩ := (Inv.init S).run h.runs
  exact ⟨H,hI⟩

/-- Reachable through events that all satisfy `C` in the state they find. -/
inductive ReachableIf (S : Setup) (C : State S.app → Event → Prop) : State S.app → Prop
  | init : ReachableIf S C {}
  | step {s : State S.app} {e : Event} : ReachableIf S C s → s.Enabled S e → C s e → ReachableIf S C (s.next S e)

/-- Invariants of such runs may speak of the history of the cluster, -/
theorem ReachableIf.inductHist {C : State S.app → Event → Prop} {P : State S.app → Hist → Prop}
    (init : P {} History.empty) (step : ∀ {s H H' e}, Inv S s H → C s e → Change S H H' s e (s.next S e) →
      Inv S (s.next S e) H' → P s H → P (s.next S e) H') (h : ReachableIf S C s) : ∃ H, Inv S s H ∧ P s H := by
  induction h with
  | init => exact ⟨_,Inv.init S,init⟩
  | step _ he hc ih =>
    obtain ⟨H,hI,hP⟩ := ih
    obtain ⟨H',hch,hI'⟩ := hI.next he
    exact ⟨H',hI',step hI hc hch hI' hP⟩

/-- or only use it. -/
theorem ReachableIf.induct {C : State S.app → Event → Prop} {P : State S.app → Prop} (init : P {})
    (step : ∀ {s H H' e}, Inv S s H → C s e → Change S H H' s e (s.next S e) → Inv S (s.next S e) H' →
      P s → P (s.next S e)) (h : ReachableIf S C s) : P s := by
  obtain ⟨_,_,hP⟩ := h.inductHist (P := fun s _ => P s) init step
  exact hP

end Parallax.Cluster
