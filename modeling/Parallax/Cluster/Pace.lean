import Parallax.Cluster.Replication

/-! Match and Next: Match never falls while a node leads, and Next stays between Match and the end of the log, unless
the leader is handed a rejection of an index that the follower has acknowledged since. -/
namespace Parallax.Cluster
open Consensus Consensus.History
variable {S : Setup} {H H' : Hist} {s s' : State S.app} {n : Nat}

/-- How node `n` came to run as `p'`: it did nothing but compact, took an input, or started. -/
inductive Became (S : Setup) (s : State S.app) (e : Event) (s' : State S.app) (n : Nat) (p' : Peer S.app) : Prop
  | stayed (p : Peer S.app) (st : Storage) (hp : (s.host n).vol = some p)
      (hr : p'.raft = { p.raft with raftLog := { p.raft.raftLog with storage := st } })
      (hnet : ∀ m ∈ s'.net, m ∈ s.net ∨ m.sender ≠ n)
  | ran (i : Input) (p : Peer S.app) (he : e.input? = some (n,i)) (hn : n ∈ S.peers) (hi : s.Admits n i)
      (hp : (s.host n).vol = some p) (hdr : Drained (i.run p.raft) p'.raft)
      (hnet : s'.net = (i.run p.raft).msgs ++ s.net)
  | started (rand : Nat → Nat) (hr : p'.raft = Raft.newRaft (S.cfg n) (s.host n).disk rand)

theorem Became.other {e : Event} {p' : Peer S.app} (hp' : (s'.host n).vol = some p') (hh : s'.host n = s.host n)
    (hnet : ∀ m ∈ s'.net, m ∈ s.net ∨ m.sender ≠ n) : Became S s e s' n p' :=
  .stayed p' p'.raft.raftLog.storage (hh ▸ hp') rfl hnet

theorem Change.became {e : Event} (h : Change S H H' s e s') {p' : Peer S.app} (hp' : (s'.host n).vol = some p') :
    Became S s e s' n p' := by
  have hother : ∀ {q : Nat} {hst : Host S.app}, n ≠ q → (s.setHost q hst).host n = s.host n := fun hq => by
    simp [State.setHost,hq]
  have hself : ∀ {hst : Host S.app}, (s.setHost n hst).host n = hst := by simp [State.setHost]
  cases h with
  | idle _ hs =>
    subst hs
    exact .other hp' rfl fun m hm => .inl hm
  | @ran q i p p₁ hst os he hn hi hp _ hr hp₁ hdr _ _ hs =>
    subst hs
    by_cases hq : n = q
    · subst hq
      change ((s.setHost n hst).host n).vol = some p' at hp'
      rw [hself,hp₁] at hp'
      obtain rfl := Option.some.inj hp'
      exact .ran i p he hn hi hp hdr rfl
    refine .other hp' (hother hq) fun m hm => (List.mem_append.mp hm).symm.imp_right fun hm => ?_
    rw [(hr.ok.msgs m hm).2]
    exact Ne.symm hq
  | @fell q _ _ _ hs | @died q _ _ _ _ _ _ _ _ _ _ _ _ _ _ _ hs =>
    subst hs
    by_cases hq : n = q
    · subst hq
      change ((s.setHost n _).host n).vol = some p' at hp'
      rw [hself] at hp'
      cases hp'
    · exact .other hp' (hother hq) fun m hm => .inl hm
  | @started q rand p _ _ _ _ hp hs =>
    subst hs
    by_cases hq : n = q
    · subst hq
      change ((s.setHost n _).host n).vol = some p' at hp'
      rw [hself] at hp'
      obtain rfl := Option.some.inj hp'
      exact .started rand hp
    · exact .other hp' (hother hq) fun m hm => .inl hm
  | @compacted q hst _ _ _ _ hv hs =>
    subst hs
    by_cases hq : n = q
    · subst hq
      rw [hself] at hp'
      obtain ⟨p,st,hp,rfl⟩ := hv p' hp'
      exact .stayed p st hp rfl fun m hm => .inl hm
    · exact .other hp' (hother hq) fun m hm => .inl hm

theorem Change.sent {e : Event} (h : Change S H H' s e s') {m : Message} (hm : m ∈ s'.net) :
    m ∈ s.net ∨ ∃ q i p, q ∈ S.peers ∧ s.Admits q i ∧ (s.host q).vol = some p ∧ m ∈ (i.run p.raft).msgs ∧
      m.sender = q := by
  cases h with
  | idle _ hs | fell _ _ _ hs | started _ _ _ _ _ hs | compacted _ _ _ _ _ hs | died _ _ _ _ _ _ _ _ _ _ hs =>
    subst hs
    exact .inl hm
  | @ran q i p p₁ hst os he hn hi hp _ hr hp₁ hdr _ _ hs =>
    subst hs
    exact (List.mem_append.mp hm).symm.imp_right fun hm => ⟨q,i,p,hn,hi,hp,hm,(hr.ok.msgs m hm).2⟩

theorem Inv.tracked (h : Inv S s H) (hn : n ∈ S.peers) {p : Peer S.app} (hp : (s.host n).vol = some p) {i : Input}
    (hi : s.Admits n i) {v : Nat} (hv : v ≠ n) (hl : (i.run p.raft).state = .leader) :
    Raft.Tracked p.raft i.message? (i.run p.raft) v := by
  have hid : p.raft.id = n := ((h.hosts n hn).peer p hp).core.ok.id
  cases i with
  | tick => exact p.raft.tick_tracked (hid ▸ hv) hl
  | step m => exact p.raft.step_tracked (h.term_pos hi) (hid ▸ hv) hl

theorem Inv.answers (h : Inv S s H) (hn : n ∈ S.peers) {p : Peer S.app} (hp : (s.host n).vol = some p) {i : Input}
    (hi : s.Admits n i) {m : Message} (hm : m ∈ (i.run p.raft).msgs) : Raft.Answers i.message? m := by
  have hpk := (h.hosts n hn).peer p hp
  obtain ⟨_,_,ha,_⟩ := h.input hn hp hi
  have hall : Raft.Answering i.message? p.raft (i.run p.raft) := by
    cases i with
    | tick => exact p.raft.tick_asides.answering _
    | step m => exact p.raft.step_answering hpk.core.ok.reads (h.term_pos hi) ha.ok.log.panicked
  exact (hall m hm).resolve_left (by rw [hpk.msgs]; exact List.not_mem_nil)

/-- A node that comes to lead has not led the term before. -/
theorem Inv.not_elected (h : Inv S s H) (hn : n ∈ S.peers) {p : Peer S.app} (hp : (s.host n).vol = some p) {i : Input}
    (hi : s.Admits n i) (hs : p.raft.state ≠ .leader) (hl : (i.run p.raft).state = .leader) :
    ¬ H.Elected (i.run p.raft).term n := by
  have hok := ((h.hosts n hn).peer p hp).core.ok
  cases h.role hi p.raft with
  | kept hst => exact absurd (hst.symm.trans hl) hs
  | follows _ _ _ hst | adopts _ _ _ _ _ _ _ hst | retires hst | probes hst =>
    rw [hst] at hl
    cases hl
  | campaigns _ _ ht =>
    rw [ht]
    intro he
    have := hok.durable.elected h.good he
    omega
  | elected hc _ ht =>
    rw [ht]
    exact (hok.stands hc).fresh

/-- Node `n` has led term `t`, and while it does its match for `v` is at least `k`. -/
structure Matches (S : Setup) (n t v k : Nat) (s : State S.app) (H : Hist) : Prop where
  elected : H.Elected t n
  matched : ∀ p, (s.host n).vol = some p → p.raft.state = .leader → p.raft.term = t →
    ∀ pr, p.raft.prs.lookup v = some pr → k ≤ pr.matched

theorem Matches.next {t v k : Nat} {e : Event} (hn : n ∈ S.peers) (hv : v ≠ n) (hI : Inv S s H)
    (hch : Change S H H' s e (s.next S e)) (h : Matches S n t v k s H) : Matches S n t v k (s.next S e) H' := by
  refine ⟨h.elected.ext hch.ext,fun p' hp' hl ht pr hpr => ?_⟩
  cases hch.became hp' with
  | stayed p st hp hr =>
    rw [hr] at hl ht hpr
    exact h.matched p hp hl ht pr hpr
  | started rand hr =>
    rw [hr] at hl
    cases hl
  | ran i p _ _ hi hp hdr =>
    obtain ⟨l,hs',hr',_⟩ := hdr
    rw [hr'] at hl ht hpr
    cases hI.tracked hn hp hi hv hl with
    | kept hs₀ hprs =>
      exact h.matched p hp hs₀ ((hI.role hi p.raft).leader_term hs₀ hl ▸ ht) pr (hprs ▸ hpr)
    | acked m pr₀ _ hs₀ _ _ _ hpr₀ hprs =>
      have hk := h.matched p hp hs₀ ((hI.role hi p.raft).leader_term hs₀ hl ▸ ht) pr₀ hpr₀
      obtain rfl := Option.some.inj (hprs.symm.trans hpr)
      simp only [Progress.maybeUpdate]
      split <;> omega
    | refused m pr₀ _ hs₀ _ _ _ hpr₀ _ hprs =>
      have hk := h.matched p hp hs₀ ((hI.role hi p.raft).leader_term hs₀ hl ▸ ht) pr₀ hpr₀
      obtain rfl := Option.some.inj (hprs.symm.trans hpr)
      exact hk
    | fresh hs₀ => exact absurd (ht ▸ h.elected) (hI.not_elected hn hp hi hs₀ hl)

theorem Inv.matched_mono (hI : Inv S s H) (hn : n ∈ S.peers) {v : Nat} (hv : v ≠ n) {p p' : Peer S.app}
    (hp : (s.host n).vol = some p) (hl : p.raft.state = .leader) {pr pr' : Progress}
    (hpr : p.raft.prs.lookup v = some pr) (hrun : Run S s s') (hp' : (s'.host n).vol = some p')
    (hl' : p'.raft.state = .leader) (ht : p'.raft.term = p.raft.term) (hpr' : p'.raft.prs.lookup v = some pr') :
    pr.matched ≤ pr'.matched := by
  have hstart : Matches S n p.raft.term v pr.matched s H := by
    refine ⟨(((hI.hosts n hn).peer p hp).core.ok.leads hl).elected,fun p₁ hp₁ _ _ pr₁ hpr₁ => ?_⟩
    obtain rfl := Option.some.inj (hp.symm.trans hp₁)
    obtain rfl := Option.some.inj (hpr.symm.trans hpr₁)
    exact le_rfl
  obtain ⟨_,_,_,hm⟩ := hI.runInduct hstart (fun hI hch h => h.next hn hv hI hch) hrun
  exact hm.matched p' hp' hl' ht pr' hpr'

/-- Nothing on its way between leader `n` of term `t` and `v` lies below `next`: neither what was sent nor what was
acknowledged. -/
structure Ahead {A : App} (s : State A) (n t v next : Nat) : Prop where
  append : ∀ m ∈ s.net, m.sender = n → m.dest = v → m.term = t → m.type = .append → next ≤ m.logIndex + 1
  snapshot : ∀ m ∈ s.net, m.sender = n → m.dest = v → m.term = t → m.type = .installSnapshot → ∀ snap,
    m.snapshot = some snap → next ≤ snap.metadata.index + 1
  ack : ∀ m ∈ s.net, m.sender = v → m.dest = n → m.term = t →
    (m.type = .appendResp ∧ m.reject = false) ∨ m.type = .installSnapshotResp → m.logIndex ≠ 0 → next ≤ m.logIndex + 1

/-- Next is the entry after Match, or Match is zero and nothing lies below Next. -/
def Paced {A : App} (s : State A) (n t v : Nat) (pr : Progress) : Prop :=
  pr.matched + 1 = pr.next ∨ pr.matched = 0 ∧ Ahead s n t v pr.next

/-- Every leader's progress is paced, and no rejection hints above the index it rejects. -/
structure InStep (S : Setup) (s : State S.app) : Prop where
  progress : ∀ n ∈ S.peers, ∀ p, (s.host n).vol = some p → p.raft.state = .leader → ∀ v, v ≠ n → ∀ pr,
    p.raft.prs.lookup v = some pr → Paced s n p.raft.term v pr
  hint : ∀ m ∈ s.net, m.type = .appendResp → m.reject = true → m.rejectHint ≤ m.logIndex

/-- The leader that is handed a rejection of the index before Next has no acknowledgement of that index. -/
def Timely {A : App} : State A → Event → Prop := OnStep fun _ m p =>
  p.raft.state = .leader ∧ m.term = p.raft.term ∧ m.type = .appendResp ∧ m.reject = true →
    ∀ pr ∈ (p.raft.prs.lookup m.sender : Option Progress), pr.next = m.logIndex + 1 → pr.matched < m.logIndex

instance {A : App} (s : State A) (e : Event) : Decidable (Timely s e) := inferInstanceAs (Decidable (OnStep _ s e))

theorem Inv.sent_next (h : Inv S s H) (hn : n ∈ S.peers) {p : Peer S.app} (hp : (s.host n).vol = some p) {i : Input}
    (hi : s.Admits n i) {m : Message} (hm : m ∈ (i.run p.raft).msgs) (hc : Raft.Carries m) :
    ∃ pr, (i.run p.raft).prs.lookup m.dest = some pr ∧ (m.type = .append → pr.next ≤ m.logIndex + 1) ∧
      (m.type = .installSnapshot → ∀ snap, m.snapshot = some snap → pr.next ≤ snap.metadata.index + 1) := by
  obtain ⟨⟨r,f⟩,hcall,hq⟩ := h.carried hn hp hm hc
  obtain ⟨_,pr,m',hpr,_,hq',hd,_,_,hm'⟩ := h.call hn hp hi hcall
  obtain rfl : m = m' := List.singleton_inj.mp (List.append_cancel_left (hq.symm.trans hq'))
  have hprs : (i.run p.raft).prs = r.prs := (h.callsIn hn hp hi (r,f) hcall).same.prs
  refine ⟨pr,by rw [hprs,hd,hpr],fun ht => ?_,fun ht snap hsnap => ?_⟩
  · split at hm'
    · cases hm'.type.symm.trans ht
    · exact hm'.logIndex.ge
  split at hm'
  · rename_i hb
    obtain rfl := Option.some.inj (hm'.snapshot.symm.trans hsnap)
    rw [hm'.boundary]
    omega
  · cases hm'.type.symm.trans ht

namespace Ahead
variable {t v k : Nat}

theorem next (h : Ahead s n t v k) (hI : Inv S s H) {e : Event} (hch : Change S H H' s e s')
    (hnet : ∀ m ∈ s'.net, m ∈ s.net ∨ m.sender ≠ n) : Ahead s' n t v k := by
  refine ⟨fun m hm hs => ?_,fun m hm hs => ?_,fun m hm hs hd ht hty hz => ?_⟩
  · exact h.append m ((hnet m hm).resolve_right (not_not.mpr hs)) hs
  · exact h.snapshot m ((hnet m hm).resolve_right (not_not.mpr hs)) hs
  rcases hch.sent hm with hm | ⟨q,i,p,hq,hi,hp,hm,rfl⟩
  · exact h.ack m hm hs hd ht hty hz
  have ha := hI.answers hq hp hi hm
  rcases hty with ⟨hty,hrej⟩ | hty
  · obtain ⟨m₀,hm₀,hty₀,hs₀,ht₀,hle⟩ := ha.append hty hrej hz
    obtain ⟨hmem,hd₀⟩ := hi.mem hm₀ (by rw [hty₀]; simp) (by rw [hty₀]; simp)
    have := h.append m₀ hmem (hs₀.trans hd) (hd₀.trans hs) (ht₀.trans ht) hty₀
    omega
  obtain ⟨m₀,snap,hm₀,hty₀,hsnap,hs₀,ht₀,hle⟩ := ha.snapshot hty hz
  obtain ⟨hmem,hd₀⟩ := hi.mem hm₀ (by rw [hty₀]; simp) (by rw [hty₀]; simp)
  have := h.snapshot m₀ hmem (hs₀.trans hd) (hd₀.trans hs) (ht₀.trans ht) hty₀ snap hsnap
  omega

theorem acted (h : Ahead s n t v k) (hI : Inv S s H) (hn : n ∈ S.peers) (hv : v ≠ n) {p : Peer S.app}
    (hp : (s.host n).vol = some p) {i : Input} (hi : s.Admits n i) {pr : Progress}
    (hpr : (i.run p.raft).prs.lookup v = some pr) (hk : pr.next ≤ k) (hnet : s'.net = (i.run p.raft).msgs ++ s.net) :
    Ahead s' n t v pr.next := by
  have hnew : ∀ m ∈ s'.net, m ∉ s.net → m ∈ (i.run p.raft).msgs := fun m hm hold =>
    (List.mem_append.mp (hnet ▸ hm)).resolve_right hold
  refine ⟨fun m hm hs hd ht hty => ?_,fun m hm hs hd ht hty snap hsnap => ?_,fun m hm hs hd ht hty hz => ?_⟩
  · by_cases hold : m ∈ s.net
    · exact hk.trans (h.append m hold hs hd ht hty)
    obtain ⟨pr',hpr',hle,_⟩ := hI.sent_next hn hp hi (hnew m hm hold) (.inl hty)
    rw [hd,hpr] at hpr'
    obtain rfl := Option.some.inj hpr'
    exact hle hty
  · by_cases hold : m ∈ s.net
    · exact hk.trans (h.snapshot m hold hs hd ht hty snap hsnap)
    obtain ⟨pr',hpr',_,hle⟩ := hI.sent_next hn hp hi (hnew m hm hold) (.inr hty)
    rw [hd,hpr] at hpr'
    obtain rfl := Option.some.inj hpr'
    exact hle hty snap hsnap
  by_cases hold : m ∈ s.net
  · exact hk.trans (h.ack m hold hs hd ht hty hz)
  · obtain ⟨_,_,hat,_⟩ := hI.input hn hp hi
    exact absurd (hs.symm.trans (hat.ok.msgs m (hnew m hm hold)).2) hv

theorem fresh (hI : Inv S s H) (hn : n ∈ S.peers) (hne : ¬ H.Elected t n) (hx : Ext H H') (hg : Good S H')
    (he : H'.Elected t n) (hv : v ≠ n) (k : Nat) : Ahead s n t v k := by
  refine ⟨fun m hm hs _ ht hty => ?_,fun m hm hs _ ht hty => ?_,fun m hm hs hd ht hty hz => ?_⟩
  · have hc := (hI.net m hm).content
    rw [Content,hty,hs,ht] at hc
    exact absurd hc.1 hne
  · have hc := (hI.net m hm).content
    rw [Content,hty,hs,ht] at hc
    exact absurd hc.1 hne
  exfalso
  -- What is acknowledged was led by someone, who can only be `n`.
  have hack : m.logIndex ≤ H.ack v t := by
    have hc := (hI.net m hm).content
    rcases hty with ⟨hty,hrej⟩ | hty
    · rw [Content,hty,hs,ht] at hc
      exact hc.1 hrej
    · rw [Content,hty,hs,ht] at hc
      exact hc
  have hlead : H.lead t ≠ [] := by
    intro h0
    have := hI.good.inv.ack_le v t
    rw [h0,List.length_nil] at this
    omega
  have hsolo := not_solo_of_ne hv hn (hs ▸ (hI.net m hm).sender)
  obtain ⟨c,hc⟩ := exists_elected (hI.good.inv.lead_elected hsolo t hlead)
  obtain rfl := hg.inv.elected_unique (hc.ext hx) he
  exact hne hc

end Ahead

private theorem decrHint_le (r : Raft) (m : Message) : r.decrHint m ≤ m.rejectHint := by
  have hscan : ∀ t i, r.scanHint t i ≤ i := by
    intro t i
    induction i with
    | zero => exact le_rfl
    | succ i ih =>
      unfold Raft.scanHint
      split
      · exact le_rfl
      split
      · exact le_rfl
      · exact ih.trans (Nat.le_succ i)
  unfold Raft.decrHint
  split
  · refine (hscan _ _).trans ?_
    split <;> omega
  · exact le_rfl

theorem Paced.acted {t v : Nat} {pr₀ pr : Progress} {p : Peer S.app} {i : Input} (h : Paced s n t v pr₀)
    (hI : Inv S s H) (hn : n ∈ S.peers) (hv : v ≠ n) (hp : (s.host n).vol = some p) (hi : s.Admits n i)
    (hpr : (i.run p.raft).prs.lookup v = some pr) (hnet : s'.net = (i.run p.raft).msgs ++ s.net)
    (hmove : pr₀.matched + 1 = pr₀.next → pr.matched + 1 = pr.next)
    (hwait : pr₀.matched = 0 → Ahead s n t v pr₀.next → pr.matched + 1 = pr.next ∨ pr.matched = 0 ∧ pr.next ≤ pr₀.next) :
    Paced s' n t v pr := by
  rcases h with h | ⟨h0,h⟩
  · exact .inl (hmove h)
  · exact (hwait h0 h).imp_right fun ⟨h1,hle⟩ => ⟨h1,h.acted hI hn hv hp hi hpr hle hnet⟩

theorem InStep.next {e : Event} (hI : Inv S s H) (hc : Timely s e) (hch : Change S H H' s e (s.next S e))
    (h : InStep S s) : InStep S (s.next S e) := by
  refine ⟨fun n hn p' hp' hl v hv pr hpr => ?_,fun m hm ht hrej => ?_⟩
  · cases hch.became hp' with
    | stayed p st hp hr hnet =>
      rw [hr] at hl hpr ⊢
      exact (h.progress n hn p hp hl v hv pr hpr).imp_right fun ⟨h0,ha⟩ => ⟨h0,ha.next hI hch hnet⟩
    | started rand hr =>
      rw [hr] at hl
      cases hl
    | ran i p he _ hi hp hdr hnet =>
      obtain ⟨l,hs',hr',_⟩ := hdr
      rw [hr'] at hl hpr ⊢
      have hterm := fun hs₀ => (hI.role hi p.raft).leader_term hs₀ hl
      cases hI.tracked hn hp hi hv hl with
      | kept hs₀ hprs =>
        refine ((hterm hs₀ ▸ h.progress n hn p hp hs₀ v hv pr (hprs ▸ hpr)).acted hI hn hv hp hi hpr hnet id ?_)
        exact fun h0 _ => .inr ⟨h0,le_rfl⟩
      | acked m pr₀ hm hs₀ hmt hty hsnd hpr₀ hprs =>
        have hold := h.progress n hn p hp hs₀ v hv pr₀ hpr₀
        have hpos := (((hI.hosts n hn).peer p hp).core.ok.leads hs₀).next v pr₀ hpr₀
        rw [← hterm hs₀] at hold hmt
        obtain rfl := Option.some.inj (hprs.symm.trans hpr)
        refine hold.acted hI hn hv hp hi hpr hnet (fun heq => ?_) fun h0 ha => ?_
        · simp only [Progress.maybeUpdate]
          split_ifs <;> omega
        obtain ⟨hmem,hd⟩ := hi.mem hm (by rcases hty with ⟨h,_⟩ | h <;> simp [h])
          (by rcases hty with ⟨h,_⟩ | h <;> simp [h])
        by_cases hz : m.logIndex = 0
        · refine .inr ?_
          simp only [Progress.maybeUpdate,hz]
          split_ifs <;> omega
        have := ha.ack m hmem hsnd hd hmt hty hz
        refine .inl ?_
        simp only [Progress.maybeUpdate]
        split_ifs <;> omega
      | refused m pr₀ hm hs₀ hmt hty hsnd hpr₀ hnx hprs =>
        have hold := h.progress n hn p hp hs₀ v hv pr₀ hpr₀
        have hpos := (((hI.hosts n hn).peer p hp).core.ok.leads hs₀).next v pr₀ hpr₀
        have hlate := hc n m p (by rw [he,Input.eq_step hm]) hp ⟨hs₀,hmt,hty⟩ pr₀ (hsnd ▸ hpr₀) (by omega)
        have hhint := h.hint m (hi.mem hm (by simp [hty.1]) (by simp [hty.1])).1 hty.1 hty.2
        have hdecr := decrHint_le p.raft m
        rw [← hterm hs₀] at hold
        obtain rfl := Option.some.inj (hprs.symm.trans hpr)
        refine hold.acted hI hn hv hp hi hpr hnet (fun heq => ?_) fun h0 _ => .inr ⟨h0,?_⟩
        · omega
        · simp only
          omega
      | fresh hs₀ h0 =>
        obtain ⟨H₁,hf,hat,_⟩ := hI.input hn hp hi
        refine .inr ⟨h0 pr hpr,Ahead.acted ?_ hI hn hv hp hi hpr le_rfl hnet⟩
        exact Ahead.fresh hI hn (hI.not_elected hn hp hi hs₀ hl) hf.ext hat.good (hat.ok.leads hl).elected hv _
  rcases hch.sent hm with hm | ⟨q,i,p,hq,hi,hp,hm,rfl⟩
  · exact h.hint m hm ht hrej
  · exact (hI.answers hq hp hi hm).hint ht hrej

/-- Next never passes the end of the log and Match never falls during one leadership; in runs where no leader is
handed a rejection of an index acknowledged since, Next stays beyond Match. -/
theorem progress_in_step (h : Reachable S s) (hn : n ∈ S.peers) {p : Peer S.app} (hp : (s.host n).vol = some p)
    (hl : p.raft.state = .leader) {v : Nat} (hv : v ≠ n) {pr : Progress} (hpr : p.raft.prs.lookup v = some pr) :
    pr.next ≤ p.raft.raftLog.lastIndex + 1 ∧
    (∀ s' p' pr', Run S s s' → (s'.host n).vol = some p' → p'.raft.state = .leader → p'.raft.term = p.raft.term →
      p'.raft.prs.lookup v = some pr' → pr.matched ≤ pr'.matched) ∧
    (ReachableIf S Timely s → pr.matched < pr.next) := by
  obtain ⟨H,hI⟩ := h.inv
  have hok := ((hI.hosts n hn).peer p hp).core.ok
  obtain ⟨hpos,hle⟩ := (hok.leads hl).next v pr hpr
  refine ⟨by rwa [hok.log.repr.lastIndex],fun s' p' pr' hrun hp' hl' ht hpr' => ?_,fun ht => ?_⟩
  · exact hI.matched_mono hn hv hp hl hpr hrun hp' hl' ht hpr'
  have hstep : InStep S s := ReachableIf.induct ⟨fun _ _ _ hp => (nomatch hp),fun _ hm => (nomatch hm)⟩
    (fun hI hc hch _ h => h.next hI hc hch) ht
  rcases hstep.progress n hn p hp hl v hv pr hpr with heq | ⟨h0,_⟩ <;> omega

theorem progress_in_step_settled : ∃ p pr, (settled.host 1).vol = some p ∧ p.raft.prs.lookup 2 = some pr ∧
    pr.matched < pr.next ∧ pr.next ≤ p.raft.raftLog.lastIndex + 1 := by
  have h : (settled.host 1).vol.any (fun p => p.raft.state = .leader ∧ (p.raft.prs.lookup 2).isSome) = true := by
    decide +kernel
  obtain ⟨p,hp,hc⟩ := (Option.any_eq_true _ _).mp h
  obtain ⟨hl,hsome⟩ := of_decide_eq_true hc
  obtain ⟨pr,hpr⟩ := Option.isSome_iff_exists.mp hsome
  obtain ⟨hle,_,hlt⟩ := progress_in_step settled_reachable (by decide) hp hl (by decide) hpr
  exact ⟨p,pr,hp,hpr,hlt (ReachableIf.play settling .init (by decide) (by decide +kernel)),hle⟩

/-- A member of the trio that appends one entry at a time. -/
def stroller (n : Nat) : Config :=
  { id := n, peers := [1,2,3], electionTicks := 2, heartbeatTicks := 1, maxEntriesPerAppend := 1 }

private theorem stroller_valid : ∀ n ∈ [1,2,3], (stroller n).validate = .ok () := by decide

def strollers : Setup where
  peers := [1,2,3]
  cfg := stroller
  app := recorder
  nodup := (trio false).nodup
  cfg_id _ _ := rfl
  cfg_peers _ _ := .refl _
  cfg_valid := stroller_valid

/-- Member 1, elected a second time, is told by member 2 that it lacks index 1, sends it and has it acknowledged; then
the rejection arrives once more. -/
def echo : List Move :=
  [.boot 1 0,.boot 2 0,.tick 1,.tick 1,.deliver .vote 1 2 0,.deliver .voteResp 2 1 0,.crash 1,.boot 1 0,
    .tick 1,.tick 1,.deliver .vote 1 2 0,.deliver .voteResp 2 1 0,.deliver .append 1 2 0,.deliver .appendResp 2 1 0,
    .deliver .append 1 2 0,.deliver .appendResp 2 1 0,.deliver .appendResp 2 1 1]

def echoed : State strollers.app := State.play strollers {} echo

/-- A rejection delivered twice takes Next back to Match. -/
theorem repeated_rejection_undoes_progress : ¬ ∀ (S : Setup) (s : State S.app), Reachable S s → ∀ n ∈ S.peers, ∀ p,
    (s.host n).vol = some p → p.raft.state = .leader → ∀ v, v ≠ n → ∀ pr, p.raft.prs.lookup v = some pr →
      pr.matched < pr.next := by
  intro hall
  have h : (echoed.host 1).vol.any (fun p => p.raft.state = .leader ∧
      (p.raft.prs.lookup 2).any fun pr => pr.matched = 1 ∧ pr.next = 1) = true := by decide +kernel
  obtain ⟨p,hp,hc⟩ := (Option.any_eq_true _ _).mp h
  obtain ⟨hl,hc⟩ := of_decide_eq_true hc
  obtain ⟨pr,hpr,hc⟩ := (Option.any_eq_true _ _).mp hc
  obtain ⟨hm,hn⟩ := of_decide_eq_true hc
  have := hall strollers echoed (Reachable.play (by decide)) 1 (by decide) p hp hl 2 (by decide) pr hpr
  omega

end Parallax.Cluster
