import Parallax.Cluster.Provenance
import Parallax.Cluster.Pace
import Parallax.Raft.Words

/-! Terms and log indices are uint64 in the source. An input raises a term by at most one and adds to a log what it
proposes, or a no-op, so a run that has taken fewer than 2^64 - 1 inputs and entries computes with exact numbers. -/
namespace Parallax.Cluster
open Consensus Consensus.History
variable {S : Setup} {H H' : Hist} {s s' : State S.app} {n k : Nat}

/-- What an input may add to a term or to a log: one, and the entries of a proposal. -/
def Input.load : Input → Nat
  | .tick => 1
  | .step m => if m.type = .propose then m.entries.length + 1 else 1

def Obs.load : Obs → Nat
  | .stepped _ (some i) _ => i.load
  | .stepped _ none _ | .drained _ _ => 0

/-- The inputs taken so far, and the entries proposed with them. -/
def State.load {A : App} (s : State A) : Nat := (s.hist.map Obs.load).sum

/-- The term, the indices and the progress of a core, `k` being the load of the run. -/
structure Counters (k : Nat) (r : Raft) : Prop where
  term : r.term ≤ k
  lastIndex : r.raftLog.lastIndex ≤ k
  committed : r.raftLog.committed ≤ k
  applied : r.raftLog.applied ≤ k
  progress : r.state = .leader → ∀ v pr, r.prs.lookup v = some pr → pr.matched ≤ k ∧ pr.next ≤ k + 1

private theorem one_le_load (i : Input) : 1 ≤ i.load := by
  unfold Input.load
  split
  · exact le_rfl
  · split_ifs <;> omega

private theorem drained_load {os : List Obs} {n : Nat} {P : Ready → Prop} (h : os = [] ∨ ∃ rd, os = [.drained n rd] ∧ P rd) :
    (os.map Obs.load).sum = 0 := by
  rcases h with rfl | ⟨rd,rfl,_⟩ <;> rfl

private theorem Adds.length_le {e : Event} {es : List Entry} {i : Input} (h : Adds e es) (he : e.input? = some (n,i)) :
    es.length ≤ i.load := by
  cases h with
  | noop => exact one_le_load i
  | @proposed _ j m he' hm hty =>
    obtain ⟨-,rfl⟩ := Prod.mk.inj (Option.some.inj (he'.symm.trans he))
    obtain rfl := Input.eq_step hm
    simp only [Input.load,hty,if_true,List.length_map]
    exact Nat.le_succ _

/-- The logs, the stored terms and the messages of a run with load `k`. A probe is one term ahead. -/
structure Bounded (k : Nat) (s : State S.app) (H : Hist) : Prop where
  traced : Traced (·.length ≤ k) s H
  term : ∀ n ∈ S.peers, (s.host n).disk.hardState.term ≤ k
  sent : ∀ m ∈ s.net, m.term ≤ k + 1

theorem Bounded.congr (h : Bounded s.load s H) (hnet : s'.net = s.net) (hload : s'.load = s.load)
    (hterm : ∀ q, (s'.host q).disk.hardState.term = (s.host q).disk.hardState.term) : Bounded s'.load s' H := by
  rw [hload]
  refine ⟨⟨h.traced.log,?_⟩,fun q hq => hterm q ▸ h.term q hq,?_⟩
  · rw [hnet]
    exact h.traced.net
  · rw [hnet]
    exact h.sent

section input
variable (h : Bounded k s H) (hI : Inv S s H) (hn : n ∈ S.peers) {i : Input} (hi : s.Admits n i) {p : Peer S.app}
  (hp : (s.host n).vol = some p)
include h hI hn hi hp

theorem Bounded.term_run : (i.run p.raft).term ≤ k + 1 := by
  have hold : p.raft.term ≤ k := ((hI.hosts n hn).peer p hp).disk.1 ▸ h.term n hn
  cases hI.role hi p.raft with
  | kept _ ht | retires _ ht | probes _ ht | elected _ _ ht => omega
  | campaigns _ _ ht => omega
  | follows m hm hf _ ht =>
    refine ht.trans_le (h.sent m (hi.mem hm ?_ ?_).1) <;> rintro hty <;> simp [Raft.FromLeader,hty] at hf
  | adopts m hm _ _ hloc _ _ _ ht => exact ht.trans_le (h.sent m (hi.mem hm hloc.1 hloc.2).1)

theorem Bounded.posted (hr : At S H' n (i.run p.raft)) {m : Message} (hm : m ∈ (i.run p.raft).msgs) :
    m.term ≤ k + 2 := by
  have hterm := h.term_run hI hn hi hp
  by_cases hpre : m.type = .preVote
  · exact (hr.ok.probes m hm hpre).trans (by omega)
  by_cases hresp : m.type = .preVoteResp
  swap
  · exact (hr.ok.msgs_term m hm hpre hresp).trans (by omega)
  have hpk := (hI.hosts n hn).peer p hp
  obtain ⟨m₀,hm₀,hty⟩ := (hI.answers hn hp hi hm).probe hresp
  have hsent := h.sent m₀ (hi.mem hm₀ (by simp [hty]) (by simp [hty])).1
  obtain rfl := Input.eq_step hm₀
  rcases p.raft.step_probe hty hm with hm | ⟨_,ht | ht⟩
  · rw [hpk.msgs] at hm
    cases hm
  · omega
  · have := hpk.disk.1 ▸ h.term n hn
    omega

end input

theorem Bounded.taken (h : Bounded s.load s H) (hI : Inv S s H) {e : Event} (hc : Change S H H' s e (s.next S e)) {i : Input}
    (he : e.input? = some (n,i)) (hn : n ∈ S.peers) (hi : s.Admits n i) {p : Peer S.app} (hp : (s.host n).vol = some p)
    {H₁ : Hist} (hr : At S H₁ n (i.run p.raft)) {hst : Host S.app} {ms : List Message} {os : List Obs}
    (hterm : hst.disk.hardState.term ≤ (i.run p.raft).term) (hms : ms ⊆ (i.run p.raft).msgs)
    (hos : (os.map Obs.load).sum = 0) (hs : s.next S e = { s.setHost n hst with
      net := ms ++ s.net, hist := os ++ .stepped n (some i) (i.run p.raft) :: s.hist }) :
    Bounded (s.next S e).load (s.next S e) H' := by
  have hpos := one_le_load i
  have hload : (s.next S e).load = s.load + i.load := by
    rw [hs,State.load,List.map_append,List.sum_append,hos,List.map_cons,List.sum_cons]
    simp only [Obs.load,State.load]
    omega
  rw [hload]
  refine ⟨h.traced.next hI hc ?_ ?_ ?_,fun q hq => ?_,fun m hm => ?_⟩
  · exact fun _ _ hpre hle => hpre.length_le.trans (hle.trans (Nat.le_add_right _ _))
  · exact fun _ _ hpre hle => hpre.length_le.trans hle
  · intro t l es hadd hle
    rw [List.length_append,stampEntries_length]
    have := hadd.length_le he
    omega
  · have hnew := h.term_run hI hn hi hp
    have hold := h.term q hq
    rw [hs]
    by_cases hqn : q = n
    · subst hqn
      simp only [State.setHost,Function.update_self]
      omega
    · simp only [State.setHost,Function.update_of_ne hqn]
      omega
  rw [hs] at hm
  rcases List.mem_append.mp hm with hm | hm
  · exact (h.posted hI hn hi hp hr (hms hm)).trans (by omega)
  · exact (h.sent m hm).trans (by omega)

theorem Bounded.next (h : Bounded s.load s H) (hI : Inv S s H) {e : Event} (hc : Change S H H' s e (s.next S e)) :
    Bounded (s.next S e).load (s.next S e) H' := by
  have hset : ∀ {q hst}, hst.disk.hardState = (s.host q).disk.hardState → ∀ v,
      ((s.setHost q hst).host v).disk.hardState.term = (s.host v).disk.hardState.term := by
    intro q hst heq v
    by_cases hv : v = q
    · subst hv
      simp [State.setHost,heq]
    · simp [State.setHost,hv]
  cases hc with
  | idle hH hs =>
    rw [hs,hH]
    exact h
  | fell _ _ hH hs =>
    rw [hs,hH]
    exact h.congr rfl rfl (hset rfl)
  | started _ _ hH _ _ hs =>
    rw [hs,hH]
    refine h.congr rfl ?_ (hset rfl)
    simp [State.load,Obs.load]
  | compacted _ _ hH hd _ hs =>
    rw [hs,hH]
    exact h.congr rfl rfl (hset hd)
  | ran he hn hi hp hf hr hp' hdr hd hos hs hk =>
    refine h.taken hI (.ran he hn hi hp hf hr hp' hdr hd hos hs hk) he hn hi hp hr hd.le (List.Subset.refl _) ?_ hs
    exact drained_load (hos.imp_left And.left)
  | died he hn hi hp hf hf₁ hr hlo hhi hos hs hk hlog hpre =>
    exact h.taken hI (.died he hn hi hp hf hf₁ hr hlo hhi hos hs hk hlog hpre) he hn hi hp hr hhi
      (List.nil_subset _) (drained_load hos) hs

theorem Reachable.bounded (h : Reachable S s) : ∃ H, Inv S s H ∧ Bounded s.load s H := by
  obtain ⟨H,_,hI,hB⟩ := (Inv.init S).runInduct (P := fun s H => Bounded s.load s H)
    ⟨⟨fun _ _ => Nat.zero_le _,by simp⟩,fun _ _ => Nat.zero_le _,by simp⟩ (fun hI hc hB => hB.next hI hc) h.runs
  exact ⟨H,hI,hB⟩

theorem Ok.counters {r : Raft} (h : Ok S H n r) (hI : H.Inv S.quorums Entry.term) (hterm : r.term ≤ k)
    (hlog : (H.log n).length ≤ k) : Counters k r where
  term := hterm
  lastIndex := h.log.repr.lastIndex.trans_le hlog
  committed := h.log.commit_le.trans hlog
  applied := h.log.applied_le.trans (h.log.commit_le.trans hlog)
  progress hs v pr hv := by
    have hl := h.leads hs
    refine ⟨(hl.matched v pr hv).trans ((hI.ack_le v r.term).trans ?_),(hl.next v pr hv).2.trans (by omega)⟩
    rw [← hl.log]
    exact hlog

/-- In every run the term and the indices of a node, and of what is sent, are within the load, so before that reaches
the end of uint64 the calls are those with exact numbers. -/
theorem load_bounds (h : Reachable S s) :
    (∀ n ∈ S.peers, ∀ p, (s.host n).vol = some p → Counters s.load p.raft ∧ (s.load < Raft.maxTerm →
      p.raft.tick Raft.nextTerm = p.raft.tick ∧ ∀ m, p.raft.step m Raft.nextTerm = p.raft.step m)) ∧
    ∀ m ∈ s.net, m.term ≤ s.load + 1 ∧ (m.type = .append → m.logIndex + m.entries.length ≤ s.load) := by
  obtain ⟨H,hI,hB⟩ := h.bounded
  refine ⟨fun n hn p hp => ?_,fun m hm => ⟨hB.sent m hm,fun hty => ?_⟩⟩
  · have hpk := (hI.hosts n hn).peer p hp
    have hterm : p.raft.term ≤ s.load := hpk.disk.1 ▸ hB.term n hn
    exact ⟨hpk.core.ok.counters hI.good.inv hterm (hB.traced.log n hn),fun hlt =>
      ⟨Raft.tick_nextTerm (hterm.trans_lt hlt),fun _ => Raft.step_nextTerm (hterm.trans_lt hlt)⟩⟩
  obtain ⟨_,hb,_⟩ := (hI.net m hm).batch hI.good hty
  have hle := hB.traced.net m hm hty
  rwa [List.length_take,min_eq_left hb.length_le] at hle

/-- A run in which a leader was elected and appended. -/
theorem load_bounds_settled : settled.load < Raft.maxTerm ∧ (∃ m ∈ settled.net, m.type = .append ∧ m.entries ≠ []) ∧
    ∀ m ∈ settled.net, m.type = .append → m.logIndex + m.entries.length ≤ settled.load :=
  ⟨by decide +kernel,by decide +kernel,fun m hm => ((load_bounds settled_reachable).2 m hm).2⟩

end Parallax.Cluster
