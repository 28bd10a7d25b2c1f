import Parallax.Cluster.Awaits
import Parallax.Cluster.Backtrack
import Parallax.Cluster.Pace
import Parallax.Raft.Owing

/-! Reads that are asked for again. Where reads are handed to leaders only, and one that was handed to a leader before
only while the leader owes it, what is released for a context covers all that was committed before it was first asked
for. -/
namespace Parallax.Cluster
open Consensus Consensus.History
variable {S : Setup} {H H' : Hist} {s s' : State S.app} {n t T k : Nat} {c : Bytes} {e : Event}

theorem At.opened {r : Raft} (h : At S H n r) (hl : r.state = .leader) (hg : r.committedEntryInCurrentTerm = true) :
    0 < H.com r.term ∧ r.raftLog.committed ≤ H.com r.term := by
  have hlead := h.ok.leads hl
  have hlog := h.ok.log
  have hterm := h.ok.gate.mp hg
  have hpos : 0 < r.term := h.good.elected_pos hlead.elected
  obtain ⟨j,hj⟩ : ∃ j, r.raftLog.committed = j + 1 := by
    refine ⟨r.raftLog.committed - 1,?_⟩
    have : r.raftLog.committed ≠ 0 := fun h0 => by rw [h0,termAt_zero] at hterm; omega
    omega
  have hle := hlog.commit_le
  rw [hj] at hterm hle
  obtain ⟨e,_,he,ht⟩ := getElem?_of_lt hle
  obtain ⟨u,hu,hpre⟩ := hlog.committed
  have hmem : e ∈ (H.log n).take r.raftLog.committed := by
    rw [hj]
    exact List.mem_of_getElem? (i := j) (by rw [List.getElem?_take_of_lt (Nat.lt_succ_self j),he])
  -- Only the leader of the entry's own term commits it.
  have hge := h.good.inv.lead_le u e (List.mem_of_mem_take (hpre.subset hmem))
  obtain rfl : u = r.term := by omega
  have hlen := hpre.length_le
  rw [List.length_take,List.length_take] at hlen
  omega

theorem At.gate_iff {r : Raft} (h : At S H n r) (hl : r.state = .leader) :
    r.committedEntryInCurrentTerm = true ↔ 0 < H.com r.term := by
  refine ⟨fun hg => (h.opened hl hg).1,fun hcom => ?_⟩
  have hlead := h.ok.leads hl
  have hlog := h.ok.log
  rw [h.ok.gate]
  obtain ⟨_,⟨p,e,hp,hlen,he⟩,_⟩ := h.good.inv.com_ok r.term (by omega)
  have hle := h.ok.com hl
  obtain ⟨ws,hws⟩ := hp
  have htop : termAt (H.log n) (p.length + 1) = r.term := by
    rw [hlead.log,← hws,← he]
    exact termAt_succ_of_getElem? (by simp)
  have hsorted := h.good.inv.lead_sorted r.term
  rw [← hlead.log] at hsorted
  have hlow := termAt_mono hsorted (i := p.length + 1) (j := r.raftLog.committed) (by omega) hlog.commit_le
  obtain ⟨j,hj⟩ : ∃ j, r.raftLog.committed = j + 1 := ⟨r.raftLog.committed - 1,by omega⟩
  have hlt := hlog.commit_le
  rw [hj] at hlow hlt ⊢
  obtain ⟨e',he',_,ht⟩ := getElem?_of_lt hlt
  have hhigh := h.good.inv.lead_le r.term e' (hlead.log ▸ he')
  omega

/-- A gauge for terms in which something is committed. -/
def Gauge.opened (H : Hist) (t : Nat) : Gauge :=
  { asked := fun _ => True, fresh := fun _ => True, high := fun i => 0 < H.com t ∧ i ≤ H.com t, clean := fun _ => True }

private theorem asking_opened_mono {r : Raft} (h : Raft.Asking (Gauge.opened H t) r) (hx : Ext H H') :
    Raft.Asking (Gauge.opened H' t) r := by
  have hhigh : ∀ i, (Gauge.opened H t).high i → (Gauge.opened H' t).high i := fun i hi =>
    ⟨Nat.lt_of_lt_of_le hi.1 (hx.com t),hi.2.trans (hx.com t)⟩
  exact
    { wf := h.wf
      status := fun ctx rs hrs => ⟨trivial,fun hf => ⟨hhigh _ ((h.status ctx rs hrs).2 hf).1,fun _ _ => trivial⟩⟩
      waiting := h.waiting
      order := h.order
      released := fun rs hrs => ⟨trivial,fun hf => ⟨hhigh _ ((h.released rs hrs).2 hf).1,((h.released rs hrs).2 hf).2⟩⟩
      gate := h.gate }

/-- Contexts are confirmed only in terms in which something is committed, and are released within that. -/
structure Unlocked (S : Setup) (s : State S.app) (H : Hist) : Prop where
  core : ∀ n ∈ S.peers, ∀ p, (s.host n).vol = some p → p.raft.state = .leader →
    Raft.Asking (Gauge.opened H p.raft.term) p.raft
  beat : ∀ m ∈ s.net, m.type = .heartbeat → m.context = [] ∨ 0 < H.com m.term
  resp : ∀ m ∈ s.net, m.type = .heartbeatResp → m.context = [] ∨ 0 < H.com m.term

theorem Unlocked.act (h : Unlocked S s H) (hx : Ext H H') (n : Nat) (hst : Host S.app) (ms : List Message) (os : List Obs)
    (hcore : ∀ p, hst.vol = some p → p.raft.state = .leader → Raft.Asking (Gauge.opened H' p.raft.term) p.raft)
    (hms : ∀ m ∈ ms, m.type = .heartbeat ∨ m.type = .heartbeatResp → m.context = [] ∨ 0 < H'.com m.term) :
    Unlocked S { s.setHost n hst with net := ms ++ s.net, hist := os ++ s.hist } H' where
  core q hq p hp hl := by
    by_cases hqn : q = n
    · subst hqn
      exact hcore p (by simpa [State.setHost] using hp) hl
    · exact asking_opened_mono (h.core q hq p (by simpa [State.setHost,hqn] using hp) hl) hx
  beat m hm ht := by
    rcases List.mem_append.mp hm with hm | hm
    · exact hms m hm (.inl ht)
    · exact (h.beat m hm ht).imp_right fun h => Nat.lt_of_lt_of_le h (hx.com _)
  resp m hm ht := by
    rcases List.mem_append.mp hm with hm | hm
    · exact hms m hm (.inr ht)
    · exact (h.resp m hm ht).imp_right fun h => Nat.lt_of_lt_of_le h (hx.com _)

theorem Unlocked.input (h : Unlocked S s H) (hI : Inv S s H) (hn : n ∈ S.peers) {p : Peer S.app}
    (hp : (s.host n).vol = some p) {i : Input} (hi : s.Admits n i) (hr : At S H' n (i.run p.raft)) (hx : Ext H H')
    (hl : (i.run p.raft).state = .leader) : Raft.Asking (Gauge.opened H' (i.run p.raft).term) (i.run p.raft) := by
  refine hI.asking hn hp hi hl (fun hl₀ => ?_) (fun _ _ _ => ⟨trivial,fun _ hf => hf⟩) (fun _ _ _ _ _ _ _ => trivial)
    trivial fun hg => hr.opened hl hg
  rw [(hI.role hi p.raft).leader_term hl₀ hl]
  exact asking_opened_mono (h.core n hn p hp hl₀) hx

theorem Unlocked.next (h : Unlocked S s H) (hI : Inv S s H) (hch : Change S H H' s e s') (hI' : Inv S s' H') :
    Unlocked S s' H' := by
  cases hch with
  | idle hH hs => exact hH ▸ hs ▸ h
  | @ran n i p p' hst os he hn hi hp hf hr hp' hdr hd hos hs =>
    have hpost := hI.posts hn hp hi
    have hask := h.input hI hn hp hi hr hf.ext
    have hok' : Ok S H' n p'.raft := ((hI'.hosts n hn).peer p' (by rw [hs]; simpa [State.setHost] using hp')).core.ok
    have hstate : p'.raft.state = (i.run p.raft).state ∧ p'.raft.term = (i.run p.raft).term := by
      obtain ⟨l,hst',hr',_⟩ := hdr
      rw [hr']
      exact ⟨rfl,rfl⟩
    rw [hs,List.append_cons]
    refine h.act hf.ext n hst _ _ (fun q hq hl => ?_) fun m hm ht => ?_
    · obtain rfl := Option.some.inj (hp'.symm.trans hq)
      rw [hstate.2]
      exact asking_drained (hask (hstate.1 ▸ hl)) hr.ok hok' hdr
    rcases ht with ht | ht
    · obtain ⟨hl,_,hterm,hc⟩ := hpost.leader m hm (.inr (.inl ht))
      rw [hterm]
      refine (hc ht).imp_right fun hq => ?_
      obtain ⟨rs,hrs⟩ := Option.isSome_iff_exists.mp (((hask hl).wf.mem _).mp hq)
      exact (((hask hl).status _ rs hrs).2 trivial).1.1
    refine (hpost.resp m hm ht).elim .inl ?_
    rintro ⟨m₀,hm₀,ht₀,hc,_,hterm,_⟩
    rw [hc,hterm]
    exact (h.beat m₀ (hi.mem hm₀ (by simp [ht₀]) (by simp [ht₀])).1 ht₀).imp_right fun h =>
      Nat.lt_of_lt_of_le h (hf.ext.com _)
  | @fell n _ _ hH hs =>
    rw [hs,hH]
    exact h.act (Ext.refl H) n _ [] [] (fun _ hp => by cases hp) (by simp)
  | @died n i p d os H₁ _ _ _ _ hf _ _ _ _ _ hs =>
    rw [hs,List.append_cons]
    exact h.act hf.ext n _ [] _ (fun _ hp => by cases hp) (by simp)
  | @started n rand p _ _ hH _ hp hs =>
    rw [hs,hH]
    refine h.act (Ext.refl H) n _ [] [_] (fun q hq hl => ?_) (by simp)
    obtain rfl := Option.some.inj hq
    rw [hp,(newRaft_role _ _ _).2.1] at hl
    cases hl
  | @compacted n hst _ hn hH _ hv hs =>
    subst hH
    rw [hs]
    refine h.act (Ext.refl H') n _ [] [] (fun q hq hl => ?_) (by simp)
    have hok' := ((hI'.hosts n hn).peer q (by rw [hs]; simpa [State.setHost] using hq)).core.ok
    obtain ⟨p,st,hp,rfl⟩ := hv q hq
    exact asking_relog (h.core n hn p hp hl) ((hI.hosts n hn).peer p hp).core.ok hok' rfl rfl (fun _ h => h) rfl rfl

/-- What is released is within what the node knows to be committed. -/
theorem Unlocked.released_le (h : Unlocked S s H) (hI : Inv S s H) (hn : n ∈ S.peers) {p : Peer S.app}
    (hp : (s.host n).vol = some p) {i : Input} (hi : s.Admits n i) (hr : At S H' n (i.run p.raft)) (hx : Ext H H')
    {rs : ReadState} (hrs : rs ∈ (i.run p.raft).readStates) : rs.index ≤ (i.run p.raft).raftLog.committed := by
  by_cases hl : (i.run p.raft).state = .leader
  · exact (((h.input hI hn hp hi hr hx hl).released rs hrs).2 trivial).1.2.trans (hr.ok.com hl)
  · rw [(hI.posts hn hp hi).quiet (.inr hl),((hI.hosts n hn).peer p hp).reads] at hrs
    cases hrs

/-- A read goes to a leader, and one that went to it before only while it is owed. -/
def Polite (s : State S.app) : Event → Prop := OnStep (fun n m p => m.type = .readIndex →
  p.raft.state = .leader ∧ (Asked s.hist n p.raft.term m.context → p.raft.Owes m.context)) s

instance (s : State S.app) (e : Event) : Decidable (Polite s e) := inferInstanceAs (Decidable (OnStep _ s e))

/-- What holds as long as all events are polite. -/
structure Mannered (S : Setup) (s : State S.app) (H : Hist) : Prop where
  sourced : Sourced S s
  unlocked : Unlocked S s H
  within : AskedWithin s
  led : ∀ n t c, Asked s.hist n t c → H.Elected t n

theorem mannered_init (S : Setup) : Mannered S {} History.empty where
  sourced := Reachable.init.sourced
  unlocked := ⟨fun _ _ _ hp => (by cases hp),fun _ hm => (by cases hm),fun _ hm => by cases hm⟩
  within _ _ _ ha := by
    obtain ⟨_,_,hr,_⟩ := ha
    cases hr
  led _ _ _ ha := by
    obtain ⟨_,_,hr,_⟩ := ha
    cases hr

theorem Mannered.next (h : Mannered S s H) (hI : Inv S s H) (hpol : Polite s e) (hch : Change S H H' s e s')
    (hI' : Inv S s' H') : Mannered S s' H' where
  sourced := h.sourced.next hI hch hI'
  unlocked := h.unlocked.next hI hch hI'
  within := h.within.next hI hch
  led n t c ha := by
    rcases ha.of_next hch with ha | ⟨hn,m,p,he,hm,_,hp,rfl⟩
    · exact (h.led n t c ha).ext hch.ext
    · exact (((hI.hosts n hn).peer p hp).core.ok.leads (hpol n m p he hp hm).1).elected.ext hch.ext

/-- The leaders that were asked for `c` owe it. -/
def Owed (S : Setup) (s : State S.app) (c : Bytes) : Prop := ∀ n ∈ S.peers, ∀ p, (s.host n).vol = some p →
  p.raft.state = .leader → Asked s.hist n p.raft.term c → p.raft.Owes c

theorem Raft.Owes.resting {r r' : Raft} (h : r.Owes c) (hno : ∀ rs ∈ r.readStates, rs.requestCtx ≠ c)
    (ho : r'.readOnly = r.readOnly) (hw : r'.pendingReadIndexMessages = r.pendingReadIndexMessages) : r'.Owes c := by
  unfold Raft.Owes Raft.Owing
  rw [ho,hw]
  rcases h with h | h | ⟨rs,hrs,hc⟩
  · exact .inl h
  · exact .inr (.inl h)
  · exact absurd hc (hno rs hrs)

/-- An event that does not release the read leaves it owed. -/
theorem Owed.next (h : Owed S s c) (hM : Mannered S s H) (hI : Inv S s H) (hpol : Polite s e) (hch : Change S H H' s e s')
    (hno : ∀ n i p, e.input? = some (n,i) → (s.host n).vol = some p → (i.run p.raft).state = .leader →
      ∀ rs ∈ (i.run p.raft).readStates, rs.requestCtx ≠ c) : Owed S s' c := by
  intro n hn p' hp' hl ha
  -- Where another node acted, nothing has changed for this one.
  have hother : (s.host n).vol = some p' → (∀ i, e.input? ≠ some (n,i)) → p'.raft.Owes c := by
    intro hp hne
    refine h n hn p' hp hl ((ha.of_next hch).resolve_right ?_)
    rintro ⟨_,m,_,he,_⟩
    exact hne _ he
  cases hch with
  | idle _ hs => exact h n hn p' (hs ▸ hp') hl (hs ▸ ha)
  | @ran q i p q' hst os he hq hi hp hf hr hq' hdr hd hos hs =>
    by_cases hqn : n = q
    · subst hqn
      obtain rfl : q' = p' := by
        rw [hs] at hp'
        exact Option.some.inj (hq'.symm.trans (by simpa [State.setHost] using hp'))
      obtain ⟨l,hst',hr',_⟩ := hdr
      have hl₁ : (i.run p.raft).state = .leader := by
        rw [← hl,hr']
      have hterm : q'.raft.term = (i.run p.raft).term := by rw [hr']
      rw [hterm] at ha
      have hl₀ : p.raft.state = .leader := by
        by_contra hl₀
        rcases ha.of_next (.ran he hn hi hp hf hr hq' ⟨l,hst',hr',‹_›⟩ hd hos hs ‹_›) with ha | ⟨_,m,p₀,he',hm,_,hp₀,_⟩
        · exact hI.not_elected hn hp hi hl₀ hl₁ (hM.led _ _ _ ha)
        · obtain rfl := Option.some.inj (hp.symm.trans hp₀)
          exact hl₀ (hpol n m p he' hp hm).1
      have hpk := (hI.hosts n hn).peer p hp
      have howes : (i.run p.raft).Owes c := by
        rcases ha.of_next (.ran he hn hi hp hf hr hq' ⟨l,hst',hr',‹_›⟩ hd hos hs ‹_›) with ha | ⟨_,m,p₀,he',hm,hc,hp₀,_⟩
        · rw [(hI.role hi p.raft).leader_term hl₀ hl₁] at ha
          have hold := h n hn p hp hl₀ ha
          cases i with
          | tick => exact hold.tick hl₀
          | step m => exact hold.step hl₀ hpk.core.ok.reads (hI.term_pos hi) hl₁
        obtain ⟨_,rfl⟩ := Prod.mk.inj (Option.some.inj (he.symm.trans he'))
        rw [Input.run,step_readIndex _ hm,← hc]
        exact Raft.owes_stepReadIndex hl₀ hpk.core.ok.reads m
      refine Raft.Owes.resting howes (hno n i p he hp hl₁) ?_ ?_
      · rw [hr']
      · rw [hr']
    refine hother ?_ fun j hj => hqn (Prod.mk.inj (Option.some.inj (hj.symm.trans he))).1
    rw [hs] at hp'
    simpa [State.setHost,hqn] using hp'
  | @fell q he _ _ hs =>
    rw [hs] at hp'
    by_cases hqn : n = q
    · subst hqn
      simp [State.setHost] at hp'
    · exact hother (by simpa [State.setHost,hqn] using hp') fun j hj => by rw [he] at hj; cases hj
  | @died q i p d os H₁ he _ _ _ _ _ _ _ _ _ hs =>
    rw [hs] at hp'
    by_cases hqn : n = q
    · subst hqn
      simp [State.setHost] at hp'
    · exact hother (by simpa [State.setHost,hqn] using hp') fun j hj =>
        hqn (Prod.mk.inj (Option.some.inj (hj.symm.trans he))).1
  | @started q rand p he _ _ _ hp hs =>
    rw [hs] at hp'
    by_cases hqn : n = q
    · subst hqn
      obtain rfl : p = p' := by simpa [State.setHost] using hp'
      rw [hp,(newRaft_role _ _ _).2.1] at hl
      cases hl
    · exact hother (by simpa [State.setHost,hqn] using hp') fun j hj => by rw [he] at hj; cases hj
  | @compacted q hst he _ _ _ hv hs =>
    rw [hs] at hp'
    by_cases hqn : n = q
    · subst hqn
      obtain ⟨p,st,hp,rfl⟩ := hv p' (by simpa [State.setHost] using hp')
      refine h n hn p hp hl ?_
      have hsame : s'.hist = s.hist := by rw [hs]; rfl
      rw [hsame] at ha
      exact ha
    · exact hother (by simpa [State.setHost,hqn] using hp') fun j hj => by rw [he] at hj; cases hj

section watching
variable {H₁ : Hist} {os₁ : List Obs}

theorem Unlocked.watching (h : Unlocked S s H) (hS : Sourced S s) (hn : n ∈ S.peers) (hcom : H.com T = 0) :
    Watching S H [] n T s where
  core p hp hl ht := by
    have hU := h.core n hn p hp hl
    have hask := hS.core n hn p hp hl
    rw [ht] at hU hask
    have hnot : ¬ 0 < H.com T := by omega
    exact
      { wf := hU.wf
        status := fun ctx rs hrs => absurd ((hU.status ctx rs hrs).2 trivial).1.1 hnot
        waiting := hask.waiting
        order := hU.order.imp fun _ _ ha => by
          obtain ⟨_,_,hr,_⟩ := ha
          cases hr
        released := fun rs hrs => absurd ((hU.released rs hrs).2 trivial).1.1 hnot
        gate := hU.gate }
  resp m hm ht _ hT hne _ := by
    have hlt := (h.resp m hm ht).resolve_left hne
    rw [hT] at hlt
    omega

theorem Watching.again (h : Watching S H₁ os₁ n T s) (hI : Inv S s H) (hn : n ∈ S.peers) {p : Peer S.app}
    (hp : (s.host n).vol = some p) (hl : p.raft.state = .leader) (ht : p.raft.term = T) (hcom : 0 < H.com T) {m : Message}
    (hm : m.type = .readIndex) (howes : p.raft.Owes m.context) (hold : Asked os₁ n T m.context) :
    Raft.Asking (readGauge S H₁ os₁ n T s.hist) (Input.run p.raft (.step m)) := by
  have hpk := (hI.hosts n hn).peer p hp
  have hask := h.core p hp hl ht
  have hg : p.raft.committedEntryInCurrentTerm = true := (hpk.core.gate_iff hl).mpr (ht ▸ hcom)
  rw [Input.run,step_readIndex _ hm]
  refine hask.again hg ?_ fun hf => hf hold
  unfold Raft.Owes Raft.Owing at howes
  rw [hask.gate hg,hpk.reads] at howes
  simpa using howes

theorem Watching.polite (h : Watching S H₁ os₁ n T s) (hI : Inv S s H) (hn : n ∈ S.peers) (hx₁ : Ext H₁ H)
    (hsub : os₁ ⊆ s.hist) (hopen : os₁ = [] ∨ 0 < H₁.com T) (hpol : Polite s e) {i : Input} (he : e.input? = some (n,i))
    {p : Peer S.app} (hp : (s.host n).vol = some p) (hi : s.Admits n i) (hr : At S H' n (i.run p.raft)) (hx : Ext H H')
    (hl : (i.run p.raft).state = .leader) (ht : (i.run p.raft).term = T) :
    Raft.Asking (readGauge S H₁ os₁ n T (.stepped n (some i) (i.run p.raft) :: s.hist)) (i.run p.raft) := by
  by_cases hnew : ∀ m, i.message? = some m → m.type = .readIndex → ¬ Asked os₁ n T m.context
  · exact h.input hI hn hp hi hr (hx₁.trans hx) hnew hl ht
  push Not at hnew
  obtain ⟨m,hm,hty,hold⟩ := hnew
  obtain rfl := Input.eq_step hm
  obtain ⟨hl₀,howes⟩ := hpol n m p he hp hty
  have hterm : p.raft.term = T := by
    rw [Input.run,step_readIndex _ hty,(p.raft.stepReadIndex_same m).term] at ht
    exact ht
  have hcom : 0 < H.com T := by
    rcases hopen with rfl | hopen
    · obtain ⟨_,_,hr,_⟩ := hold
      cases hr
    · exact Nat.lt_of_lt_of_le hopen (hx₁.com T)
  exact asking_read_mono (h.again hI hn hp hl₀ hterm hcom hty (howes (hterm ▸ hold.mono hsub)) hold)
    (List.subset_cons_self _ _)

end watching

/-- What the leader `n` of term `T` releases for `c` from now on covers `k` entries, whether or not it is asked again. -/
def Vouches (S : Setup) (H : Hist) (s : State S.app) (n T k : Nat) (c : Bytes) : Prop :=
  ∃ (s₁ : State S.app) (H₁ : Hist) (os₁ : List Obs) (t₁ : Nat) (xs : List Entry), Inv S s₁ H₁ ∧ Ext H₁ H ∧
    os₁ ⊆ s.hist ∧ Watching S H₁ os₁ n T s ∧ ¬ Asked os₁ n T c ∧ H₁.CommittedBy t₁ xs ∧ k ≤ xs.length ∧
      (os₁ = [] ∨ 0 < H₁.com T)

theorem Mannered.vouches (hM : Mannered S s H) (hI : Inv S s H) (hn : n ∈ S.peers) (hc : ¬ Asked s.hist n T c)
    {xs : List Entry} (hx : H.CommittedBy t xs) (hk : k ≤ xs.length) : Vouches S H s n T k c := by
  by_cases hcom : 0 < H.com T
  · exact ⟨s,H,s.hist,t,xs,hI,Ext.refl H,List.Subset.refl _,hM.sourced.watching hn,hc,hx,hk,.inr hcom⟩
  refine ⟨s,H,[],t,xs,hI,Ext.refl H,List.nil_subset _,hM.unlocked.watching hM.sourced hn (by omega),?_,hx,hk,.inl rfl⟩
  rintro ⟨_,_,hr,_⟩
  cases hr

theorem Vouches.next (h : Vouches S H s n T k c) (hI : Inv S s H) (hpol : Polite s e) (hch : Change S H H' s e s')
    (hI' : Inv S s' H') : Vouches S H' s' n T k c := by
  obtain ⟨s₁,H₁,os₁,t₁,xs,hI₁,hx,hsub,hW,hf,hxs,hk,hopen⟩ := h
  obtain ⟨os,hos⟩ := hch.hist
  refine ⟨s₁,H₁,os₁,t₁,xs,hI₁,hx.trans hch.ext,?_,hW.keep hI hx hch hI' fun i p H₂ he hn hp hi hr hx' hl ht => ?_,hf,hxs,hk,
    hopen⟩
  · rw [hos]
    exact List.Subset.trans hsub (List.subset_append_right _ _)
  · exact hW.polite hI hn hx hsub hopen hpol he hp hi hr hx' hl ht

theorem Vouches.released (h : Vouches S H s n T k c) (hI : Inv S s H) (hn : n ∈ S.peers) (hpol : Polite s e) {i : Input}
    (he : e.input? = some (n,i)) {p : Peer S.app} (hp : (s.host n).vol = some p) (hi : s.Admits n i)
    (hr : At S H' n (i.run p.raft)) (hx : Ext H H') (hl : (i.run p.raft).state = .leader)
    (ht : (i.run p.raft).term = T) {rs : ReadState} (hrs : rs ∈ (i.run p.raft).readStates) (hc : rs.requestCtx = c) :
    k ≤ rs.index := by
  obtain ⟨s₁,H₁,os₁,t₁,xs,hI₁,hx₁,hsub,hW,hf,hxs,hk,hopen⟩ := h
  have hrel := (hW.polite hI hn hx₁ hsub hopen hpol he hp hi hr hx hl ht).released rs hrs
  rw [hr.ok.peers.length_eq] at hrel
  exact hk.trans (hI₁.covers hrel (hc ▸ hf) hxs)

/-- A run from `s` through events that all satisfy `C`. -/
inductive RunIf (S : Setup) (C : State S.app → Event → Prop) (s : State S.app) : State S.app → Prop
  | refl : RunIf S C s s
  | tail {s' : State S.app} {e : Event} : RunIf S C s s' → s'.Enabled S e → C s' e → RunIf S C s (s'.next S e)

theorem RunIf.trans {C : State S.app → Event → Prop} {s₂ : State S.app} (h : RunIf S C s s') (h' : RunIf S C s' s₂) :
    RunIf S C s s₂ := by
  induction h' with
  | refl => exact h
  | tail _ he hc ih => exact ih.tail he hc

theorem RunIf.play {C : State S.app → Event → Prop} (ms : List Move) : ∀ {s : State S.app},
    (∀ m ∈ ms, m.node ∈ S.peers) → s.playAll S C ms → RunIf S C s (s.play S ms) := by
  induction ms with
  | nil => exact fun _ _ => .refl
  | cons m ms ih =>
    intro s hn hall
    have htail : RunIf S C s ((m.event s).elim s (s.next S)) := by
      cases he : m.event s with
      | none => exact .refl
      | some e => exact RunIf.refl.tail (Move.enabled (hn m (by simp)) he) (hall.1 e he)
    exact htail.trans (ih (fun m' hm' => hn m' (by simp [hm'])) hall.2)

theorem Change.released (hch : Change S H H' s e s') (hI : Inv S s H) (hpol : Polite s e)
    (hv : ∀ n ∈ S.peers, ∀ T, Vouches S H s n T k c) {os : List Obs} (hos : s'.hist = os ++ s.hist) {rd : Ready}
    (ho : .drained n rd ∈ os) {rs : ReadState} (hrs : rs ∈ rd.readStates) (hc : rs.requestCtx = c) : k ≤ rs.index := by
  obtain ⟨hn,i,p,H₂,he,hi,hp,hr,hx,hrd,_⟩ := hch.batches hos ho
  rw [ready_readStates hrd] at hrs
  by_cases hl : (i.run p.raft).state = .leader
  · exact (hv n hn _).released hI hn hpol he hp hi hr hx hl rfl hrs hc
  · rw [(hI.posts hn hp hi).quiet (.inr hl),((hI.hosts n hn).peer p hp).reads] at hrs
    cases hrs

/-- Some node has the commit index `k`. -/
def Attained (S : Setup) (s : State S.app) (k : Nat) : Prop :=
  ∃ q ∈ S.peers, ∃ p, (s.host q).vol = some p ∧ p.raft.raftLog.committed = k

theorem Attained.vouches (h : Attained S s k) (hM : Mannered S s H) (hI : Inv S s H) (hn : n ∈ S.peers)
    (hc : ¬ Asked s.hist n T c) : Vouches S H s n T k c := by
  obtain ⟨q,hq,p,hp,rfl⟩ := h
  have hlog := ((hI.hosts q hq).peer p hp).core.ok.log
  exact hM.vouches hI hn hc hlog.committed (by rw [List.length_take,min_eq_left hlog.commit_le])

end Parallax.Cluster
