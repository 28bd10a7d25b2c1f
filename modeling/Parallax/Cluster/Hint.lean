import Parallax.Cluster.Safety

/-! The leader hint. A node takes the sender of any message of a higher term for the leader
of that term, also the sender of a mere response. -/
namespace Parallax.Cluster
open Consensus Consensus.History
variable {S : Setup} {s : State S.app} {n : Nat}

/-- An answer to a request, or the refusal of a probe. -/
def IsResponse (m : Message) : Prop :=
  m.type = .appendResp ∨ m.type = .heartbeatResp ∨ m.type = .installSnapshotResp ∨ m.type = .voteResp ∨
    (m.type = .preVoteResp ∧ m.reject = true)

instance (m : Message) : Decidable (IsResponse m) := by unfold IsResponse; infer_instance

/-- The event does not hand a node a response of a term above its own. -/
def NoRaise {A : App} : State A → Event → Prop := OnStep fun _ m p => IsResponse m → m.term ≤ p.raft.term

instance {A : App} (s : State A) (e : Event) : Decidable (NoRaise s e) := inferInstanceAs (Decidable (OnStep _ s e))

/-- Node `n` is on record as leader of term `t`. -/
def Recorded {A : App} (s : State A) (n t : Nat) : Prop :=
  ∃ i r, .stepped n i r ∈ s.hist ∧ r.state = .leader ∧ r.term = t

/-- Hints and leader messages name leaders on record. -/
structure Truthful (S : Setup) (s : State S.app) : Prop where
  hint : ∀ n ∈ S.peers, ∀ p, (s.host n).vol = some p → p.raft.lead ≠ None → Recorded s p.raft.lead p.raft.term
  net : ∀ m ∈ s.net, Raft.FromLeader m → Recorded s m.sender m.term

theorem Recorded.mono {A : App} {s s' : State A} {n t : Nat} (h : Recorded s n t) (hh : s.hist ⊆ s'.hist) :
    Recorded s' n t := by
  obtain ⟨i,r,hr,h⟩ := h
  exact ⟨i,r,hh hr,h⟩

theorem Truthful.lead {H : Hist} (h : Truthful S s) (hI : Inv S s H) (hn : n ∈ S.peers) {i : Input}
    (hi : s.Admits n i) {p : Peer S.app} (hp : (s.host n).vol = some p)
    (hc : ∀ m, i.message? = some m → IsResponse m → m.term ≤ p.raft.term) (hl : (i.run p.raft).lead ≠ None) :
    Recorded s (i.run p.raft).lead (i.run p.raft).term ∨
      ((i.run p.raft).state = .leader ∧ (i.run p.raft).lead = n) := by
  have hid : p.raft.id = n := ((hI.hosts n hn).peer p hp).core.ok.id
  cases hI.role hi p.raft with
  | kept _ ht hl' _ =>
    rw [hl'] at hl
    rw [hl',ht]
    exact .inl (h.hint n hn p hp hl)
  | follows m hm hf _ ht _ hl' =>
    rw [hl',ht]
    refine .inl (h.net m (hi.mem hm ?_ ?_).1 hf) <;> rintro hty <;> simp [Raft.FromLeader,hty] at hf
  | adopts m hm hgt hf hloc hpv hg _ _ hl' =>
    by_cases hvote : m.type = .vote
    · rw [hl',if_pos hvote] at hl
      exact absurd rfl hl
    -- Every other type that is sent at all and adopted here is a response.
    exfalso
    have hnr : ¬ IsResponse m := fun hr => Nat.not_le.mpr hgt (hc m hm hr)
    have hcont := (hI.net m (hi.mem hm hloc.1 hloc.2).1).content
    unfold Content at hcont
    unfold IsResponse at hnr
    unfold Raft.FromLeader at hf
    cases ht : m.type <;> simp_all
  | retires _ _ hl' => exact absurd hl' hl
  | probes _ _ hl' _ => exact absurd hl' hl
  | campaigns _ _ _ hl' _ => exact .inr ((hl'.resolve_left hl).imp_right fun h => h.trans hid)
  | elected _ hs _ hl' => exact .inr ⟨hs,hl'.trans hid⟩

theorem Truthful.act (h : Truthful S s) (q : Nat) (hst : Host S.app) (ms : List Message) (os : List Obs)
    (hhint : ∀ p, hst.vol = some p → p.raft.lead ≠ None →
      Recorded ({ s.setHost q hst with net := ms ++ s.net, hist := os ++ s.hist } : State S.app)
        p.raft.lead p.raft.term)
    (hnet : ∀ m ∈ ms, Raft.FromLeader m →
      Recorded ({ s.setHost q hst with net := ms ++ s.net, hist := os ++ s.hist } : State S.app) m.sender m.term) :
    Truthful S { s.setHost q hst with net := ms ++ s.net, hist := os ++ s.hist } := by
  refine ⟨fun n hn p hp hl => ?_,fun m hm hf => ?_⟩
  · by_cases hq : n = q
    · subst hq
      exact hhint p (by simpa [State.setHost] using hp) hl
    · exact (h.hint n hn p (by simpa [State.setHost,hq] using hp) hl).mono (List.subset_append_right _ _)
  rcases List.mem_append.mp hm with hm | hm
  · exact hnet m hm hf
  · exact (h.net m hm hf).mono (List.subset_append_right _ _)

theorem Truthful.next {H H' : Hist} {e : Event} {s' : State S.app} (h : Truthful S s) (hI : Inv S s H)
    (hc : NoRaise s e) (hch : Change S H H' s e s') : Truthful S s' := by
  cases hch with
  | idle _ hs => exact hs ▸ h
  | @ran n i p p' hst os he hn hi hp hf hr hp' hdr _ _ hs =>
    have hlead := h.lead hI hn hi hp fun m hm => hc n m p (he.trans (by rw [Input.eq_step hm])) hp
    rw [List.append_cons] at hs
    have hrec : ∀ t, (i.run p.raft).state = .leader → (i.run p.raft).term = t → Recorded s' n t := by
      intro t hst ht
      exact ⟨some i,_,by rw [hs]; simp,hst,ht⟩
    rw [hs] at hrec ⊢
    refine h.act n hst _ _ (fun q hq hl => ?_) fun m hm hfl => ?_
    · rw [hp'] at hq
      obtain rfl := Option.some.inj hq
      obtain ⟨l,hs',hr',_⟩ := hdr
      rw [hr'] at hl ⊢
      rcases hlead hl with h1 | ⟨h1,h2⟩
      · exact h1.mono (List.subset_append_right _ _)
      · simp only [h2]
        exact hrec _ h1 rfl
    obtain ⟨h1,_,h2,_⟩ := (hI.posts hn hp hi).leader m hm hfl
    rw [(hr.ok.msgs m hm).2]
    exact hrec _ h1 h2.symm
  | fell _ _ _ hs =>
    rw [hs]
    exact h.act _ _ [] [] (fun _ hp => by cases hp) (by simp)
  | died _ _ _ _ _ _ _ _ _ _ hs =>
    rw [hs,List.append_cons]
    exact h.act _ _ [] _ (fun _ hp => by cases hp) (by simp)
  | started _ _ _ _ hp hs =>
    rw [hs]
    refine h.act _ _ [] [_] (fun q hq hl => ?_) (by simp)
    obtain rfl := Option.some.inj hq
    rw [hp] at hl
    exact absurd rfl hl
  | compacted _ hn _ _ hv hs =>
    rw [hs]
    refine h.act _ _ [] [] (fun q hq hl => ?_) (by simp)
    obtain ⟨p,st,hp,rfl⟩ := hv q hq
    exact h.hint _ hn p hp hl

/-- In runs whose events hand no node a response of a higher term, hints name leaders. -/
theorem hint_truthful (h : ReachableIf S NoRaise s) {n : Nat} (hn : n ∈ S.peers) {p : Peer S.app}
    (hp : (s.host n).vol = some p) (hl : p.raft.lead ≠ None) : Led s p.raft.lead p.raft.term := by
  have ht : Truthful S s := ReachableIf.induct ⟨fun _ _ _ hp => (nomatch hp),fun _ hm => (nomatch hm)⟩
    (fun hI hc hch _ hT => hT.next hI hc hch) h
  exact .inl (ht.hint n hn p hp hl)

theorem hint_truthful_settled : ∃ p, (settled.host 2).vol = some p ∧ p.raft.lead = 1 ∧ Led settled 1 1 := by
  have hr : ReachableIf (trio false) NoRaise settled :=
    ReachableIf.play settling .init (by decide) (by decide +kernel)
  have h : (settled.host 2).vol.any (fun p => p.raft.lead = 1 ∧ p.raft.term = 1) = true := by decide +kernel
  obtain ⟨p,hp,hl⟩ := (Option.any_eq_true _ _).mp h
  simp only [decide_eq_true_eq] at hl
  have ht := hint_truthful hr (by decide) hp (by rw [hl.1]; decide)
  rw [hl.1,hl.2] at ht
  exact ⟨p,hp,hl.1,ht⟩

/-- Member 3, out of touch, probes member 2, which still follows member 1 and refuses. -/
def refusal : List Move :=
  [.boot 1 0,.boot 2 0,.boot 3 0,.tick 1,.tick 1,.deliver .preVote 1 2 0,.deliver .preVoteResp 2 1 0,
    .deliver .vote 1 2 0,.deliver .voteResp 2 1 0,.deliver .append 1 2 0,.deliver .append 1 3 0,.tick 3,.tick 3,
    .deliver .preVote 3 2 0,.deliver .preVoteResp 2 3 0]

def refused : State (trio true).app := State.play (trio true) {} refusal

theorem refused_hint : ∃ p, (refused.host 3).vol = some p ∧ p.raft.term = 2 ∧ p.raft.lead = 2 := by
  have h : (refused.host 3).vol.any (fun p => p.raft.term = 2 ∧ p.raft.lead = 2) = true := by decide +kernel
  simpa using (Option.any_eq_true _ _).mp h

private theorem refused_not_led : ¬ Led refused 2 2 := by
  rintro (⟨i,r,hr,hs,ht⟩ | ⟨p,hp,hs,ht⟩)
  · have hnone : refused.hist.any (Obs.shows fun n r => n = 2 ∧ r.state = .leader ∧ r.term = 2) = false := by decide +kernel
    have := List.any_eq_false.mp hnone _ hr
    simp [Obs.shows,hs,ht] at this
  have hnone : (refused.host 2).vol.any (fun p => p.raft.state = .leader) = false := by decide +kernel
  rw [hp] at hnone
  simp [hs] at hnone

/-- Hints are not always truthful. -/
theorem hint_not_truthful : ¬ ∀ (S : Setup) (s : State S.app), Reachable S s → ∀ n ∈ S.peers, ∀ p,
    (s.host n).vol = some p → p.raft.lead ≠ None → Led s p.raft.lead p.raft.term := by
  intro h
  obtain ⟨p,hp,ht,hl⟩ := refused_hint
  have := h (trio true) refused (Reachable.play (by decide)) 3 (by decide) p hp (by rw [hl]; decide)
  rw [hl,ht] at this
  exact refused_not_led this

end Parallax.Cluster
