import Parallax.Cluster.Hint
import Parallax.Cluster.Pace

/-! Pre-vote and terms. Where no refusal that repeats the term of a probe, and none at all above the prober's term,
reaches a node, and every grant that is counted answers the current probe, no term is entered without a candidate
that a quorum encouraged, and a refused prober stays in its term. -/
namespace Parallax.Cluster
open Consensus Consensus.History
variable {S : Setup} {s : State S.app} {n : Nat}

/-- In the history `os`, youngest first, `v` granted the probe of `c` for term `t`. -/
def Granted (os : List Obs) (c t v : Nat) : Prop :=
  ∃ rd m, .drained v rd ∈ os ∧ m ∈ rd.messages ∧ m.type = .preVoteResp ∧ m.reject = false ∧ m.term = t ∧ m.dest = c

/-- Some node stood for term `t`, after a quorum had granted it a probe for `t`. A lone
node is recorded as the leader it becomes in the same step. -/
def Earned (S : Setup) (os : List Obs) (t : Nat) : Prop :=
  ∃ c i r older, .stepped c i r :: older <:+ os ∧ (r.state = .candidate ∨ r.state = .leader) ∧ r.term = t ∧
    ∃ Q, S.quorums.IsQuorum Q ∧ c ∈ Q ∧ ∀ v ∈ Q, v ≠ c → Granted older c t v

/-- In the history `os` a probe of `c` for term `t` has reached `v`. -/
def Probe (os : List Obs) (c t v : Nat) : Prop := Handed os v fun m _ => m.type = .preVote ∧ m.sender = c ∧ m.term = t

instance (os : List Obs) (c t v : Nat) : Decidable (Probe os c t v) := inferInstanceAs (Decidable (Handed os v _))

/-- A refusal of a term above the node's own comes to no pre-candidate, and does not repeat the term of a probe; a
grant that is counted is one of the current probe. -/
def HonestReply {A : App} (s : State A) : Event → Prop := OnStep (fun n m p => m.type = .preVoteResp →
  (m.reject = true → p.raft.term < m.term → p.raft.state ≠ .preCandidate ∧ ¬ Probe s.hist n m.term m.sender) ∧
  (m.reject = false → p.raft.state = .preCandidate → m.term = p.raft.term + 1 ∨ m.term < p.raft.term)) s

instance {A : App} (s : State A) (e : Event) : Decidable (HonestReply s e) := inferInstanceAs (Decidable (OnStep _ s e))

theorem Granted.mono {os os' : List Obs} {c t v : Nat} (h : Granted os c t v) (hs : os ⊆ os') :
    Granted os' c t v := by
  obtain ⟨rd,m,hrd,hm⟩ := h
  exact ⟨rd,m,hs hrd,hm⟩

theorem Earned.mono {os os' : List Obs} {t : Nat} (h : Earned S os t) (hs : os <:+ os') : Earned S os' t := by
  obtain ⟨c,i,r,older,ho,hr⟩ := h
  exact ⟨c,i,r,older,ho.trans hs,hr⟩

/-- What the runs in question keep: every term in use was earned, a refusal carries such a term or that of the probe
it answers, and a probing node counts grants of its own probe only and has not enough of them yet. -/
structure Probed (S : Setup) (s : State S.app) : Prop where
  cfg : ∀ n ∈ S.peers, ∀ p, (s.host n).vol = some p → p.raft.cfg = S.cfg n
  sent : ∀ m ∈ s.net, ∃ rd, .drained m.sender rd ∈ s.hist ∧ m ∈ rd.messages
  disk : ∀ n ∈ S.peers, ∀ t, 0 < t → t ≤ (s.host n).disk.hardState.term → Earned S s.hist t
  obs : ∀ n i r older, .stepped n i r :: older <:+ s.hist → ∀ t, 0 < t → t ≤ r.term →
    Earned S (.stepped n i r :: older) t
  refusal : ∀ m ∈ s.net, m.type = .preVoteResp → (∀ t, 0 < t → t ≤ m.term → Earned S s.hist t) ∨
    Probe s.hist m.dest m.term m.sender
  tally : ∀ n ∈ S.peers, ∀ p, (s.host n).vol = some p → p.raft.state = .preCandidate → ∀ v,
    p.raft.votes.lookup v = some true → v = n ∨ v ∈ S.peers ∧ Granted s.hist n (p.raft.term + 1) v
  short : ∀ n ∈ S.peers, ∀ p, (s.host n).vol = some p → p.raft.Undecided

section input
variable {H : Hist} (h : Probed S s) (hI : Inv S s H) (hn : n ∈ S.peers) {i : Input} (hi : s.Admits n i)
  {p : Peer S.app} (hp : (s.host n).vol = some p)
include h hI hi hp hn

theorem Probed.tallied (hc : ∀ m, i.message? = some m → m.type = .preVoteResp → m.reject = false →
      p.raft.state = .preCandidate → m.term = p.raft.term + 1 ∨ m.term < p.raft.term) {v : Nat}
    (hv : Raft.Tallied p.raft i.message? v) : v = n ∨ v ∈ S.peers ∧ Granted s.hist n (p.raft.term + 1) v := by
  rcases hv with hv | ⟨hpre,hv | ⟨m,hm,hty,hrej,rfl,hle⟩⟩
  · exact .inl (hv.trans ((hI.hosts n hn).peer p hp).core.ok.id)
  · exact h.tally n hn p hp hpre v hv
  obtain ⟨hmem,hdest⟩ := hi.mem hm (by simp [hty]) (by simp [hty])
  obtain ⟨rd,hrd,hin⟩ := h.sent m hmem
  have hterm : m.term = p.raft.term + 1 := (hc m hm hty hrej hpre).resolve_right (by omega)
  exact .inr ⟨(hI.net m hmem).sender,rd,m,hrd,hin,hty,hrej,hterm,hdest⟩

theorem Probed.earned (hpv : ∀ n ∈ S.peers, (S.cfg n).preVote = true) (e : Event) (he : e.input? = some (n,i))
    (hc : HonestReply s e) {t : Nat} (ht : 0 < t) (hle : t ≤ (i.run p.raft).term) :
    Earned S (.stepped n (some i) (i.run p.raft) :: s.hist) t := by
  have hpk := (hI.hosts n hn).peer p hp
  have hsuf : s.hist <:+ Obs.stepped n (some i) (i.run p.raft) :: s.hist := List.suffix_cons _ _
  have hmsg : ∀ m, i.message? = some m → e.input? = some (n,.step m) := by
    intro m hm
    rw [he,Input.eq_step hm]
  have hold : t ≤ p.raft.term → Earned S (.stepped n (some i) (i.run p.raft) :: s.hist) t := fun h' =>
    (h.disk n hn t ht (by rw [hpk.disk.1]; exact h')).mono hsuf
  have hsent : ∀ m, i.message? = some m → m.type ≠ .propose → m.type ≠ .readIndex → m.type ≠ .preVote →
      m.type ≠ .preVoteResp → t ≤ m.term → Earned S (.stepped n (some i) (i.run p.raft) :: s.hist) t := by
    intro m hm h1 h2 h3 h4 h5
    have hmem := (hi.mem hm h1 h2).1
    exact (h.disk _ (hI.net m hmem).sender t ht (h5.trans (hI.net_term m hmem h3 h4))).mono hsuf
  cases hI.role hi p.raft with
  | kept _ ht' | retires _ ht' | probes _ ht' | elected _ _ ht' => exact hold (ht' ▸ hle)
  | follows m hm hf _ ht' =>
    refine hsent m hm ?_ ?_ ?_ ?_ (ht' ▸ hle) <;> rintro hty <;> simp [Raft.FromLeader,hty] at hf
  | adopts m hm hgt _ hloc hpre hg _ ht' =>
    by_cases hty : m.type = .preVoteResp
    · obtain ⟨hmem,hd⟩ := hi.mem hm hloc.1 hloc.2
      have hno := ((hc n m p (hmsg m hm) hp hty).1 (hg hty) hgt).2
      exact ((h.refusal m hmem hty).resolve_right (hd ▸ hno) t ht (ht' ▸ hle)).mono hsuf
    · exact hsent m hm hloc.1 hloc.2 hpre hty (ht' ▸ hle)
  | campaigns _ hs ht' _ hq =>
    by_cases htp : t ≤ p.raft.term
    · exact hold htp
    -- The new term: the majority behind the campaign granted this very probe.
    obtain rfl : t = p.raft.term + 1 := by omega
    obtain ⟨r₀,hpe,hquo,hv⟩ := hq (by rw [h.cfg n hn p hp]; exact hpv n hn)
    have htal := fun v hv' => h.tallied hI hn hi hp
      (fun m hm hty => (hc n m p (hmsg m hm) hp hty).2) (hv v hv')
    obtain ⟨Q,hQ,hvotes⟩ := tally_quorum (S := S) (hpe ▸ hpk.core.ok.peers)
      (fun v hv' => (htal v hv').elim (· ▸ hn) (·.1)) hquo
    refine ⟨n,some i,_,s.hist,List.suffix_refl _,hs,ht',insert n Q,⟨?_,?_⟩,Finset.mem_insert_self n Q,?_⟩
    · exact Finset.insert_subset (List.mem_toFinset.mpr hn) hQ.1
    · exact hQ.2.trans_le (Finset.card_le_card (Finset.subset_insert n Q))
    · intro v hv' hne
      exact ((htal v (hvotes v (Finset.mem_of_mem_insert_of_ne hv' hne))).resolve_left hne).2

theorem Probed.refused (e : Event) (he : e.input? = some (n,i)) (hc : HonestReply s e) (hs : p.raft.state = .preCandidate)
    {m : Message} (hm : i.message? = some m) (hty : m.type = .preVoteResp) (hrej : m.reject = true) :
    (i.run p.raft).term = p.raft.term := by
  have hmem := (hi.mem hm (by rw [hty]; simp) (by rw [hty]; simp)).1
  have hle : m.term ≤ p.raft.term := by
    by_contra hgt
    exact ((hc n m p (he.trans (by rw [Input.eq_step hm])) hp hty).1 hrej (not_le.mp hgt)).1 hs
  obtain rfl := Input.eq_step hm
  exact p.raft.step_refused (h.short n hn p hp) hs hty hrej (hI.net m hmem).term hle

theorem Probed.answer {m : Message} (hm : m ∈ (i.run p.raft).msgs) (hty : m.type = .preVoteResp) :
    (∀ t, 0 < t → t ≤ m.term → Earned S s.hist t) ∨ ∃ m₀, i = .step m₀ ∧ m₀.type = .preVote ∧ m₀.sender = m.dest ∧
      m₀.term = m.term := by
  have hpk := (hI.hosts n hn).peer p hp
  obtain ⟨m₀,hm₀,hty₀⟩ := (hI.answers hn hp hi hm).probe hty
  obtain rfl := Input.eq_step hm₀
  rcases p.raft.step_probe hty₀ hm with hm | ⟨hd,ht | ht⟩
  · rw [hpk.msgs] at hm
    cases hm
  · exact .inr ⟨m₀,rfl,hty₀,hd.symm,ht.symm⟩
  · exact .inl fun t h0 hle => h.disk n hn t h0 (by rw [hpk.disk.1]; exact ht ▸ hle)

end input

theorem stepped_suffix {os older l : List Obs} {o o' : Obs} (hos : os = [] ∨ ∃ n rd, os = [.drained n rd])
    (ho : ∀ n rd, o ≠ .drained n rd) (h : o :: older <:+ os ++ o' :: l) : o :: older = o' :: l ∨ o :: older <:+ l := by
  rcases hos with rfl | ⟨n,rd,rfl⟩
  · exact List.suffix_cons_iff.mp h
  rcases List.suffix_cons_iff.mp h with h | h
  · exact absurd (List.cons.inj h).1 (ho n rd)
  · exact List.suffix_cons_iff.mp h

theorem Probed.act (h : Probed S s) (n : Nat) (hst : Host S.app) (ms : List Message) (os : List Obs)
    (hcfg : ∀ p, hst.vol = some p → p.raft.cfg = S.cfg n)
    (hsent : ∀ m ∈ ms, ∃ rd, .drained m.sender rd ∈ os ∧ m ∈ rd.messages)
    (hrefusal : ∀ m ∈ ms, m.type = .preVoteResp → (∀ t, 0 < t → t ≤ m.term → Earned S s.hist t) ∨
      Probe os m.dest m.term m.sender)
    (hdisk : ∀ t, 0 < t → t ≤ hst.disk.hardState.term → Earned S (os ++ s.hist) t)
    (hobs : ∀ c i r older, .stepped c i r :: older <:+ os ++ s.hist → .stepped c i r :: older <:+ s.hist ∨
      ∀ t, 0 < t → t ≤ r.term → Earned S (.stepped c i r :: older) t)
    (htally : ∀ p, hst.vol = some p → p.raft.state = .preCandidate → ∀ v, p.raft.votes.lookup v = some true →
      v = n ∨ v ∈ S.peers ∧ Granted s.hist n (p.raft.term + 1) v)
    (hshort : ∀ p, hst.vol = some p → p.raft.Undecided) :
    Probed S { s.setHost n hst with net := ms ++ s.net, hist := os ++ s.hist } where
  cfg q hq p hp := by
    by_cases hqn : q = n
    · subst hqn
      exact hcfg p (by simpa [State.setHost] using hp)
    · exact h.cfg q hq p (by simpa [State.setHost,hqn] using hp)
  sent m hm := by
    rcases List.mem_append.mp hm with hm | hm
    · obtain ⟨rd,hrd,hin⟩ := hsent m hm
      exact ⟨rd,List.mem_append_left _ hrd,hin⟩
    · obtain ⟨rd,hrd,hin⟩ := h.sent m hm
      exact ⟨rd,List.mem_append_right _ hrd,hin⟩
  disk q hq t ht hle := by
    by_cases hqn : q = n
    · subst hqn
      exact hdisk t ht (by simpa [State.setHost] using hle)
    · exact (h.disk q hq t ht (by simpa [State.setHost,hqn] using hle)).mono (List.suffix_append _ _)
  obs c i r older ho t ht hle := (hobs c i r older ho).elim (fun ho => h.obs c i r older ho t ht hle) fun h => h t ht hle
  refusal m hm hty := by
    rcases List.mem_append.mp hm with hm | hm
    · exact (hrefusal m hm hty).imp (fun h t ht hle => (h t ht hle).mono (List.suffix_append _ _)) fun h =>
        Handed.mono h (List.subset_append_left _ _)
    · exact (h.refusal m hm hty).imp (fun h t ht hle => (h t ht hle).mono (List.suffix_append _ _)) fun h =>
        Handed.mono h (List.subset_append_right _ _)
  short q hq p hp := by
    by_cases hqn : q = n
    · subst hqn
      exact hshort p (by simpa [State.setHost] using hp)
    · exact h.short q hq p (by simpa [State.setHost,hqn] using hp)
  tally q hq p hp hpre v hv := by
    have hg : v = q ∨ v ∈ S.peers ∧ Granted s.hist q (p.raft.term + 1) v := by
      by_cases hqn : q = n
      · subst hqn
        exact htally p (by simpa [State.setHost] using hp) hpre v hv
      · exact h.tally q hq p (by simpa [State.setHost,hqn] using hp) hpre v hv
    exact hg.imp_right fun hg => ⟨hg.1,hg.2.mono (List.subset_append_right _ _)⟩

theorem recorded_or_earned {os : List Obs} {i : Option Input} {r : Raft}
    (hos : os = [] ∨ ∃ n rd, os = [.drained n rd])
    (hearn : ∀ t, 0 < t → t ≤ r.term → Earned S (.stepped n i r :: s.hist) t) (c : Nat) (j : Option Input) (r' : Raft)
    (older : List Obs) (h : .stepped c j r' :: older <:+ os ++ [.stepped n i r] ++ s.hist) :
    .stepped c j r' :: older <:+ s.hist ∨ ∀ t, 0 < t → t ≤ r'.term → Earned S (.stepped c j r' :: older) t := by
  rw [List.append_assoc] at h
  rcases stepped_suffix hos (by simp) h with heq | h
  · obtain ⟨h1,rfl⟩ := List.cons.inj heq
    cases h1
    exact .inr hearn
  · exact .inl h

theorem Inv.probing {H : Hist} (h : Inv S s H) {i : Input} (hi : s.Admits n i) (r : Raft)
    (hs : (i.run r).state = .preCandidate) :
    (i.run r).term = r.term ∧ ∀ v, (i.run r).votes.lookup v = some true → Raft.Tallied r i.message? v := by
  cases h.role hi r with
  | kept _ ht _ hk => exact ⟨ht,hk hs⟩
  | probes _ ht _ hk => exact ⟨ht,fun v hv => .inl (hk v hv)⟩
  | follows _ _ _ hs' | adopts _ _ _ _ _ _ _ hs' | retires hs' | elected _ hs' => simp_all
  | campaigns _ hs' => rcases hs' with hs' | hs' <;> simp_all

theorem Probed.next {H H' : Hist} {e : Event} {s' : State S.app} (h : Probed S s)
    (hpv : ∀ n ∈ S.peers, (S.cfg n).preVote = true) (hI : Inv S s H) (hc : HonestReply s e)
    (hch : Change S H H' s e s') : Probed S s' := by
  cases hch with
  | idle _ hs => exact hs ▸ h
  | @ran n i p p' hst os he hn hi hp hf hr hp' hdr hd hos hs =>
    have hearn := fun t => h.earned hI hn hi hp hpv e he hc (t := t)
    obtain ⟨l,hst',hr',_⟩ := hdr
    obtain ⟨H₁,_,_,_,heff,_⟩ := hI.input hn hp hi
    have hone : os = [] ∨ ∃ n rd, os = [Obs.drained n rd] :=
      hos.imp (·.1) fun ⟨rd,h,_⟩ => ⟨n,rd,h⟩
    rw [hs,List.append_cons]
    refine h.act n hst _ _ (fun q hq => ?_) (fun m hm => ?_) (fun m hm hty => ?_) (fun t ht hle => ?_)
      (recorded_or_earned hone hearn) (fun q hq hpre v hv => ?_) fun q hq => ?_
    · obtain rfl := Option.some.inj (hp'.symm.trans hq)
      rw [hr',← h.cfg n hn p hp]
      exact heff.kept.cfg
    · rw [(hr.ok.msgs m hm).2]
      rcases hos with ⟨_,hnil,_⟩ | ⟨rd,rfl,hrd⟩
      · rw [hnil] at hm
        cases hm
      · exact ⟨rd,by simp,(hr.ok.log.readyOf hrd).messages ▸ hm⟩
    · refine (h.answer hI hn hi hp hm hty).imp_right fun ⟨m₀,hi₀,hm₀⟩ => ⟨m₀,i.run p.raft,?_,hm₀⟩
      rw [(hr.ok.msgs m hm).2,← hi₀]
      exact List.mem_append_right _ (List.mem_singleton_self _)
    · rw [List.append_assoc]
      exact (hearn t ht (hd ▸ hle)).mono (List.suffix_append _ _)
    · obtain rfl := Option.some.inj (hp'.symm.trans hq)
      rw [hr'] at hpre hv
      obtain ⟨hterm,htal⟩ := hI.probing hi p.raft hpre
      rw [hr']
      simp only [hterm]
      refine h.tallied hI hn hi hp (fun m hm hty => (hc n m p ?_ hp hty).2) (htal v hv)
      rw [he,Input.eq_step hm]
    obtain rfl := Option.some.inj (hp'.symm.trans hq)
    rw [hr']
    exact (hI.role hi p.raft).undecided (h.short n hn p hp)
  | @fell n he hn _ hs =>
    rw [hs]
    exact h.act n _ [] [] (fun _ hp => by cases hp) (by simp) (by simp) (fun t ht hle => h.disk n hn t ht hle)
      (fun _ _ _ _ ho => .inl ho) (fun _ hp => by cases hp) fun _ hp => by cases hp
  | @died n i p d os H₁ he hn hi hp hf hf₁ hr hlo hhi hos hs =>
    have hearn := fun t => h.earned hI hn hi hp hpv e he hc (t := t)
    have hone : os = [] ∨ ∃ n rd, os = [Obs.drained n rd] := hos.imp_right fun ⟨rd,h,_⟩ => ⟨n,rd,h⟩
    rw [hs,List.append_cons]
    refine h.act n _ [] _ (fun _ hp => by cases hp) (by simp) (by simp) (fun t ht hle => ?_)
      (recorded_or_earned hone hearn) (fun _ hp => by cases hp) fun _ hp => by cases hp
    rw [List.append_assoc]
    exact (hearn t ht (hle.trans hhi)).mono (List.suffix_append _ _)
  | @started n rand p he hn _ hv hp hs =>
    obtain ⟨h1,h2,h3⟩ := newRaft_role (S.cfg n) (s.host n).disk rand
    rw [← hp] at h1 h2 h3
    have hearn : ∀ t, 0 < t → t ≤ p.raft.term → Earned S (.stepped n none p.raft :: s.hist) t := fun t ht hle =>
      (h.disk n hn t ht (h3 ▸ hle)).mono (List.suffix_cons _ _)
    rw [hs]
    refine h.act n _ [] [_] (fun q hq => ?_) (by simp) (by simp) (fun t ht hle => hearn t ht (h3.symm ▸ hle))
      (recorded_or_earned (.inl rfl) hearn) (fun q hq hpre => ?_) fun q hq => ?_
    · obtain rfl := Option.some.inj hq
      exact h1
    · obtain rfl := Option.some.inj hq
      rw [h2] at hpre
      cases hpre
    · obtain rfl := Option.some.inj hq
      exact .of_ne (by rw [h2]; simp)
  | @compacted n hst he hn _ hd hv hs =>
    rw [hs]
    refine h.act n hst [] [] (fun q hq => ?_) (by simp) (by simp) (fun t ht hle => h.disk n hn t ht (hd ▸ hle))
      (fun _ _ _ _ ho => .inl ho) (fun q hq hpre v hvv => ?_) fun q hq => ?_
    · obtain ⟨p,st,hp,rfl⟩ := hv q hq
      exact h.cfg n hn p hp
    · obtain ⟨p,st,hp,rfl⟩ := hv q hq
      exact h.tally n hn p hp hpre v hvv
    · obtain ⟨p,st,hp,rfl⟩ := hv q hq
      exact h.short n hn p hp

/-- With PreVote on everywhere and honest replies, a node's term is one that a candidate entered earlier, backed by a
quorum of grants for it, and a pre-candidate that is refused keeps its term. -/
theorem term_earned (hpv : ∀ n ∈ S.peers, (S.cfg n).preVote = true) (h : ReachableIf S HonestReply s) :
    (∀ n i r older, .stepped n i r :: older <:+ s.hist → 0 < r.term → Earned S (.stepped n i r :: older) r.term) ∧
    ∀ e n m p, s.Enabled S e → HonestReply s e → e.input? = some (n,.step m) → (s.host n).vol = some p →
      p.raft.state = .preCandidate → m.type = .preVoteResp → m.reject = true →
      ((Input.step m).run p.raft).term = p.raft.term := by
  have hinit : Probed S {} :=
    { cfg := fun _ _ _ hp => (nomatch hp)
      sent := fun _ hm => (nomatch hm)
      disk := fun _ _ t ht hle => absurd ht (Nat.not_lt.mpr hle)
      obs := fun _ _ _ _ ho => by simp at ho
      refusal := fun _ hm => (nomatch hm)
      tally := fun _ _ _ hp => (nomatch hp)
      short := fun _ _ _ hp => (nomatch hp) }
  obtain ⟨H,hI,hP⟩ := h.inductHist (P := fun s _ => Probed S s) hinit fun hI hc hch _ hP => hP.next hpv hI hc hch
  refine ⟨fun n i r older ho ht => hP.obs n i r older ho _ ht le_rfl,fun e n m p he hc hin hp hs hty hrej => ?_⟩
  obtain ⟨hn,hi⟩ := he.input hin
  exact hP.refused hI hn hi hp e hin hc hs rfl hty hrej

/-- Member 3 probes in term 0, joins term 1 and probes there, while the refusal of its first probe is on its way. -/
def reprobing : State (trio true).app := State.play (trio true) {}
  [.boot 1 0,.boot 2 0,.boot 3 0,.tick 3,.tick 3,.tick 1,.tick 1,.deliver .preVote 1 2 0,.deliver .preVoteResp 2 1 0,
    .deliver .vote 1 2 0,.deliver .voteResp 2 1 0,.deliver .append 1 2 0,.deliver .preVote 3 2 0,.deliver .append 1 3 0,
    .tick 3,.tick 3]

/-- The refusal of the first probe. -/
def lateReply : Message := { type := .preVoteResp, sender := 2, dest := 3, term := 1, reject := true }

/-- Member 2 is in term 1 because member 1 stood for it with the grant of member 2, and member 3 stays in term 1 when it
is refused. -/
theorem term_earned_reprobing : (∃ i r older, .stepped 2 i r :: older <:+ reprobing.hist ∧ r.term = 1 ∧
    Earned (trio true) (.stepped 2 i r :: older) 1) ∧ ∃ p, (reprobing.host 3).vol = some p ∧
      p.raft.state = .preCandidate ∧ p.raft.term = 1 ∧ ((Input.step lateReply).run p.raft).term = 1 := by
  have hr : ReachableIf (trio true) HonestReply reprobing := ReachableIf.play _ .init (by decide) (by decide +kernel)
  obtain ⟨hearned,hrefused⟩ := term_earned (by decide) hr
  constructor
  · have h : reprobing.hist.any (Obs.shows fun n r => n = 2 ∧ r.term = 1) = true := by decide +kernel
    obtain ⟨o,ho,hat⟩ := List.any_eq_true.mp h
    cases o with
    | drained n rd => cases hat
    | stepped n i r =>
      obtain ⟨rfl,ht⟩ : n = 2 ∧ r.term = 1 := by simpa [Obs.shows] using hat
      obtain ⟨newer,older,heq⟩ := List.append_of_mem ho
      have hsuf : .stepped 2 i r :: older <:+ reprobing.hist := ⟨newer,heq.symm⟩
      have he := hearned 2 i r older hsuf (by rw [ht]; decide)
      rw [ht] at he
      exact ⟨i,r,older,hsuf,ht,he⟩
  have h : (reprobing.host 3).vol.any (fun p => p.raft.state = .preCandidate ∧ p.raft.term = 1) = true := by decide +kernel
  obtain ⟨p,hp,hat⟩ := (Option.any_eq_true _ _).mp h
  obtain ⟨hs,ht⟩ := of_decide_eq_true hat
  have hkept := hrefused (.input 3 (.step lateReply) true) 3 lateReply p (by decide +kernel) (by decide +kernel) rfl hp hs
    rfl rfl
  exact ⟨p,hp,hs,ht,hkept.trans ht⟩

/-- PreVote alone does not keep terms undisturbed: member 3 of `refused` is in a term that no
node ever stood for. -/
theorem term_not_earned : ¬ ∀ (S : Setup) (s : State S.app), (∀ n ∈ S.peers, (S.cfg n).preVote = true) →
    Reachable S s → ∀ n i r older, .stepped n i r :: older <:+ s.hist → 0 < r.term →
      Earned S (.stepped n i r :: older) r.term := by
  intro hall
  have h : refused.hist.any (Obs.shows fun _ r => r.term = 2) = true := by decide +kernel
  have hnone : refused.hist.any (Obs.shows fun _ r => (r.state = .candidate ∨ r.state = .leader) ∧ r.term = 2) = false := by
    decide +kernel
  obtain ⟨o,ho,hat⟩ := List.any_eq_true.mp h
  cases o with
  | drained n rd => cases hat
  | stepped n i r =>
    have ht : r.term = 2 := by simpa [Obs.shows] using hat
    obtain ⟨newer,older,heq⟩ := List.append_of_mem ho
    have hsuf : .stepped n i r :: older <:+ refused.hist := ⟨newer,heq.symm⟩
    obtain ⟨c,j,r',older',hin,hst,ht',_⟩ :=
      hall (trio true) refused (by decide) (Reachable.play (by decide)) n i r older hsuf (by rw [ht]; decide)
    have := List.any_eq_false.mp hnone _ ((hin.trans hsuf).subset List.mem_cons_self)
    rw [ht] at ht'
    simp [Obs.shows,hst,ht'] at this

end Parallax.Cluster
