import Parallax.Cluster.Acks
import Parallax.Cluster.Reads

/-! A read asked for when some entries were committed: what the leader of that term releases for its context covers
them. A node that starts anew asks in later terms only. -/
namespace Parallax.Cluster
open Consensus Consensus.History
variable {S : Setup} {H H' : Hist} {s s' : State S.app} {n t T k : Nat} {c : Bytes} {e : Event}

theorem step_readIndex (r : Raft) {m : Message} (hm : m.type = .readIndex) : r.step m = r.stepReadIndex m := by
  unfold Raft.step
  rw [hm]

theorem Change.records (hch : Change S H H' s e s') {os : List Obs} (hos : s'.hist = os ++ s.hist) {q : Nat}
    {i : Input} {r : Raft} (ho : .stepped q (some i) r ∈ os) :
    e.input? = some (q,i) ∧ q ∈ S.peers ∧ ∃ p, (s.host q).vol = some p ∧ r = i.run p.raft := by
  cases hch with
  | idle _ hs | fell _ _ _ hs | compacted _ _ _ _ _ hs =>
    rw [hs] at hos
    obtain rfl := List.self_eq_append_left.mp hos
    cases ho
  | @ran n i₀ p _ _ bs he hn _ hp _ _ _ _ _ hbs hs =>
    rw [hs,List.append_cons] at hos
    obtain rfl := List.append_cancel_right hos
    have hq : q = n ∧ i = i₀ ∧ r = i₀.run p.raft := by
      rcases hbs with ⟨rfl,_⟩ | ⟨rd,rfl,_⟩ <;> simpa using ho
    obtain ⟨rfl,rfl,rfl⟩ := hq
    exact ⟨he,hn,p,hp,rfl⟩
  | @died n i₀ p _ bs _ he hn _ hp _ _ _ _ _ hbs hs =>
    rw [hs,List.append_cons] at hos
    obtain rfl := List.append_cancel_right hos
    have hq : q = n ∧ i = i₀ ∧ r = i₀.run p.raft := by
      rcases hbs with rfl | ⟨rd,rfl,_⟩ <;> simpa using ho
    obtain ⟨rfl,rfl,rfl⟩ := hq
    exact ⟨he,hn,p,hp,rfl⟩
  | started _ _ _ _ _ hs =>
    rw [hs,← List.singleton_append] at hos
    obtain rfl := List.append_cancel_right hos
    cases List.mem_singleton.mp ho

/-- A read asked for is an old one, or the input. -/
theorem Asked.of_next (h : Asked s'.hist n t c) (hch : Change S H H' s e s') : Asked s.hist n t c ∨
    n ∈ S.peers ∧ ∃ m p, e.input? = some (n,.step m) ∧ m.type = .readIndex ∧ m.context = c ∧
      (s.host n).vol = some p ∧ p.raft.term = t := by
  obtain ⟨os,hos⟩ := hch.hist
  obtain ⟨m,r,hr,hm,hc,ht⟩ := h
  rw [hos,List.mem_append] at hr
  rcases hr with hr | hr
  · obtain ⟨he,hn,p,hp,rfl⟩ := hch.records hos hr
    refine .inr ⟨hn,m,p,he,hm,hc,hp,?_⟩
    rw [Input.run,step_readIndex _ hm,(p.raft.stepReadIndex_same m).term] at ht
    exact ht
  · exact .inl ⟨m,r,hr,hm,hc,ht⟩

/-- Reads were asked for in terms that the disk knows. -/
def AskedWithin (s : State S.app) : Prop := ∀ n t c, Asked s.hist n t c → t ≤ (s.host n).disk.hardState.term

theorem AskedWithin.next (h : AskedWithin s) (hI : Inv S s H) (hch : Change S H H' s e s') : AskedWithin s' := by
  intro n t c ha
  refine le_trans ?_ (hch.term_le hI n)
  rcases ha.of_next hch with ha | ⟨hn,_,p,_,_,_,hp,ht⟩
  · exact h n t c ha
  · rw [← ht,((hI.hosts n hn).peer p hp).disk.1]

/-- A core started in term `t₀`: it stands for election in later terms. -/
def Past (t₀ : Nat) (r : Raft) : Prop := t₀ ≤ r.term ∧ (r.state = .candidate ∨ r.state = .leader → t₀ < r.term)

theorem Past.role {t₀ : Nat} {r r' : Raft} {i : Option Message} (h : Past t₀ r) (hr : Raft.RoleEffect r i r') :
    Past t₀ r' := by
  obtain ⟨hle,hlt⟩ := h
  cases hr with
  | kept hs ht => exact ⟨ht ▸ hle,fun hst => ht ▸ hlt (hs ▸ hst)⟩
  | follows m _ _ hs ht hm => exact ⟨ht ▸ hle.trans hm,fun hst => by simp [hs] at hst⟩
  | adopts m _ hm _ _ _ _ hs ht => exact ⟨by omega,fun hst => by simp [hs] at hst⟩
  | retires hs ht | probes hs ht => exact ⟨ht ▸ hle,fun hst => by simp [hs] at hst⟩
  | campaigns _ _ ht => exact ⟨by omega,fun _ => by omega⟩
  | elected hs₀ _ ht => exact ⟨ht ▸ hle,fun _ => ht ▸ hlt (.inl hs₀)⟩

/-- What the leader `n` of term `T` releases for the context `c` from now on covers `k` entries. -/
def Awaits (S : Setup) (H : Hist) (s : State S.app) (n T k : Nat) (c : Bytes) : Prop :=
  ∃ (s₁ : State S.app) (H₁ : Hist) (t₁ : Nat) (xs : List Entry), Inv S s₁ H₁ ∧ Ext H₁ H ∧
    s₁.hist ⊆ s.hist ∧ Watching S H₁ s₁.hist n T s ∧ ¬ Asked s₁.hist n T c ∧ H₁.CommittedBy t₁ xs ∧ k ≤ xs.length

/-- A context that was not asked for yet. -/
theorem Inv.awaits (hI : Inv S s H) (hS : Sourced S s) (hn : n ∈ S.peers) (hc : ¬ Asked s.hist n T c) {xs : List Entry}
    (hx : H.CommittedBy t xs) (hk : k ≤ xs.length) : Awaits S H s n T k c :=
  ⟨s,H,t,xs,hI,Ext.refl H,List.Subset.refl _,hS.watching hn,hc,hx,hk⟩

/-- Events that repeat no context at the node. -/
theorem Awaits.next (h : Awaits S H s n T k c) (hI : Inv S s H) (hch : Change S H H' s e s') (hI' : Inv S s' H')
    (hno : ∀ m, e.input? = some (n,.step m) → m.type = .readIndex → ¬ Asked s.hist n T m.context) :
    Awaits S H' s' n T k c := by
  obtain ⟨s₁,H₁,t₁,xs,hI₁,hx,hsub,hW,hf,hxs,hk⟩ := h
  obtain ⟨os,hos⟩ := hch.hist
  refine ⟨s₁,H₁,t₁,xs,hI₁,hx.trans hch.ext,?_,hW.next hI hx hch hI' hos fun m r ho hm _ ha => ?_,hf,hxs,hk⟩
  · rw [hos]
    exact List.Subset.trans hsub (List.subset_append_right _ _)
  · exact hno m (hch.records hos ho).1 hm (ha.mono hsub)

theorem Awaits.released (h : Awaits S H s n T k c) (hI : Inv S s H) (hn : n ∈ S.peers) {p : Peer S.app}
    (hp : (s.host n).vol = some p) {i : Input} (hi : s.Admits n i) (hr : At S H' n (i.run p.raft)) (hx : Ext H H')
    (hno : ∀ m, i.message? = some m → m.type = .readIndex → ¬ Asked s.hist n T m.context)
    (hl : (i.run p.raft).state = .leader) (ht : (i.run p.raft).term = T) {rs : ReadState}
    (hrs : rs ∈ (i.run p.raft).readStates) (hc : rs.requestCtx = c) : k ≤ rs.index := by
  obtain ⟨s₁,H₁,t₁,xs,hI₁,hx₁,hsub,hW,hf,hxs,hk⟩ := h
  have hask := hW.input hI hn hp hi hr (hx₁.trans hx) (fun m hm hty ha => hno m hm hty (ha.mono hsub)) hl ht
  have hrel := hask.released rs hrs
  rw [hr.ok.peers.length_eq] at hrel
  exact hk.trans (hI₁.covers hrel (hc ▸ hf) hxs)

end Parallax.Cluster
