import Parallax.Cluster.Acks
import Parallax.Drive.Play

/-! Crashes of production nodes: whatever is left of the directory, the node starts from it, and what it starts
with honours everything it sent. -/
namespace Parallax.Drive
open Kv
open Cluster (Setup Host Peer Hist)
variable {S : Setup} {H H' : Hist} {n maxSegmentSize : Nat} {c : Cluster.State (serving S).app} {s s' : Site}

/-- Input `i` makes node `n` send `m`; `l` is its log then. -/
def Site.Sends (maxSegmentSize : Nat) (S : Setup) (s : Site) (n : Nat) (i : Input) (m : Message) (l : RaftLog) : Prop :=
  s.Enabled maxSegmentSize S (.input n i) ∧ s.Fits (.input n i) ∧
    ∃ sv, s.node n = .up sv ∧ m ∈ ((sv.handle i).drain maxSegmentSize).1 ∧ l = (sv.handle i).node.raftLog

/-- On the way from `s` to `s'` the message `m` reached node `n`. -/
def Site.Delivered (maxSegmentSize : Nat) (S : Setup) (s s' : Site) (n : Nat) (m : Message) : Prop :=
  ∃ s₁ e sv, Site.Run maxSegmentSize S s s₁ ∧ s₁.Enabled maxSegmentSize S e ∧ s₁.Fits e ∧ e.input? = some (n,.recv m) ∧
    s₁.node n = .up sv ∧ Site.Run maxSegmentSize S (s₁.next maxSegmentSize S e) s'

theorem Backs.step (h : Backs S c s) (hI : Cluster.Inv (serving S) c H) {e : Event}
    (he : s.Enabled maxSegmentSize S e) (hf : s.Fits e) :
    ∃ c' H' ce, Cluster.Change (serving S) H H' c ce c' ∧ Causes s e ce ∧ Cluster.Inv (serving S) c' H' ∧
      Backs S c' (s.next maxSegmentSize S e) := by
  obtain ⟨c',hsh,hb⟩ := h.next hI he hf
  rcases hsh.step h he with rfl | ⟨ce,hce,hca,rfl⟩
  · exact ⟨c',H,.crash 0,.idle rfl rfl,fun _ _ hin => (nomatch hin),hI,hb⟩
  · obtain ⟨H',hc,hI'⟩ := hI.next hce
    exact ⟨_,H',ce,hc,hca,hI',hb⟩

theorem cause_append {sv : Server} {i : Input} {m : Message} (h : .step m = sv.cause i) (hm : m.type = .append) :
    i = .recv m := by
  cases i with
  | tick => cases h
  | recv m' =>
    obtain rfl := Cluster.Input.step.inj h
    rfl
  | request req => cases req <;> (obtain rfl := Cluster.Input.step.inj h; cases hm)

theorem Backs.upheld {t : Nat} {A : List Entry} (h : Backs S c s) (hI : Cluster.Inv (serving S) c H)
    (hu : Cluster.Upheld c H n t A (Site.Delivered maxSegmentSize S s s n)) (hr : Site.Run maxSegmentSize S s s') :
    ∃ c' H', Cluster.Inv (serving S) c' H' ∧ Backs S c' s' ∧
      Cluster.Upheld c' H' n t A (Site.Delivered maxSegmentSize S s s' n) := by
  induction hr with
  | refl => exact ⟨c,H,hI,h,hu⟩
  | tail hrun hs ih =>
    obtain ⟨c₁,H₁,hI₁,hb₁,hu₁⟩ := ih
    cases hs with
    | mk e he hf =>
      obtain ⟨c₂,H₂,ce,hc,hca,hI₂,hb₂⟩ := hb₁.step hI₁ he hf
      refine ⟨c₂,H₂,hI₂,hb₂,hu₁.next hI₁ hc (hca.snapless hb₁) (fun m hm => ?_) fun m hin hty => ?_⟩
      · obtain ⟨s₁,e₁,sv,h₁,h₂,h₃,h₄,h₅,h₆⟩ := hm
        exact ⟨s₁,e₁,sv,h₁,h₂,h₃,h₄,h₅,h₆.tail (.mk _ e he hf)⟩
      obtain ⟨sv,i,hx,_,hi,hcause⟩ := hca n _ hin
      rw [cause_append hcause hty] at hi
      exact ⟨_,e,sv,hrun,he,hf,hi,hx,.refl⟩

theorem Runs.base_index {sv : Server} {d : Parallax.Storage} {p : Peer (serving S).app} (h : Runs sv d p)
    (hs : sv.node.raftLog.unstable.snapshot = none) : sv.node.raftLog.base.index = 0 := by
  obtain ⟨_,hb,_⟩ := h.stored
  rw [RaftLog.base,hs]
  rw [h.storage,hb.snapshot]

theorem Site.Sends.upheld {s₀ : Site} {i : Input} {m : Message} {l : RaftLog}
    (h : s₀.Sends maxSegmentSize S n i m l) (hs₀ : s₀.Reachable maxSegmentSize S) (hm : Raft.Acks m) :
    ∃ c H xs, Cluster.Inv (serving S) c H ∧ Backs S c (s₀.next maxSegmentSize S (.input n i)) ∧ l.base.index = 0 ∧
      l.Repr xs ∧ m.logIndex ≤ xs.length ∧ ∀ D, Cluster.Upheld c H n m.term (xs.take m.logIndex) D := by
  obtain ⟨he,hf,sv,hx,hmem,rfl⟩ := h
  obtain ⟨c,hc,hb⟩ := hs₀.backed
  obtain ⟨H,hI⟩ := hc.inv
  obtain ⟨p,hv,hr⟩ : Mirrors (.up sv) (c.host n) := hx ▸ hb.nodes n he.1
  have hadm := hb.admits he.2 sv
  have hno := hb.arrives he.2 sv
  have hfits : ∀ rd, (sv.handle i).node.ready = .ok rd → BatchFits rd := fun rd hrd =>
    hf sv (by rw [hx]; rfl) rd (by rw [hrd]; rfl)
  obtain ⟨_,ms,sv',hdrain,_,hms,hnet,_⟩ := hr.input hI he.1 hv hadm hno hfits maxSegmentSize
  rw [hdrain] at hmem
  obtain ⟨_,_,hrun,hsn,_⟩ := hr.handled hI he.1 hv hadm hno
  have hnode : (sv.cause i).run p.raft = (sv.handle i).node := hrun.node
  obtain ⟨H',hfr,ha,_,_,hI'⟩ := hI.inputAt he.1 hadm false hv
  obtain ⟨_,hlen,hlead⟩ := hI.acked he.1 hv hadm hfr ha (hms m hmem) hm
  obtain ⟨c',hsh,hb'⟩ := hb.next hI he hf
  simp only [Shadows,hx] at hsh
  subst hsh
  have hterm := hI'.net_term m (hnet ▸ List.mem_append_left _ hmem) (by simp [hm.1]) (by simp [hm.1])
  rw [(ha.ok.msgs m (hms m hmem)).2] at hterm
  exact ⟨_,H',H'.log n,hI',hb',hrun.base_index hsn,hnode ▸ ha.ok.log.repr,hlen,
    fun _ => ⟨hlead,hterm,.inl (List.take_prefix _ _)⟩⟩

/-- The log `l'` holds the entries of `l` up to index `n`, or those before some index `k` for which an append after
term `t` among the messages `D` brought another entry. What it then has at `k` was brought so, or is that of `l` again. -/
def Retains (D : Message → Prop) (t n : Nat) (l l' : RaftLog) : Prop :=
  (∀ k ≤ n, l'.entry? k = l.entry? k) ∨
    ∃ k ≤ n, (∀ j < k, l'.entry? j = l.entry? j) ∧
      (∃ e, Cluster.Brought D (t + 1) e ∧ e.index = k ∧ l.entry? k ≠ some e) ∧
      ∃ e, l'.entry? k = some e ∧ (l.entry? k = some e ∨ Cluster.Brought D (t + 1) e)

theorem retains_of_upheld {D : Message → Prop} {t k : Nat} {l l' : RaftLog} {xs ys : List Entry} (hl : l.base.index = 0)
    (hrep : l.Repr xs) (hl' : l'.base.index = 0) (hrep' : l'.Repr ys) (hk : k ≤ xs.length)
    (h : xs.take k <+: ys ∨ ∃ j, Cluster.Replaced D t (xs.take k) ys j) : Retains D t k l l' := by
  have hxs : ∀ j, l.entry? (j + 1) = xs[j]? := fun j => hrep.entry?_eq (by rw [hl]; exact j.succ_pos)
  have hys : ∀ j, l'.entry? (j + 1) = ys[j]? := fun j => hrep'.entry?_eq (by rw [hl']; exact j.succ_pos)
  have hlow : ∀ b, ys.take b = xs.take b → ∀ j ≤ b, l'.entry? j = l.entry? j := by
    intro b heq j hj
    cases j with
    | zero => simp [RaftLog.entry?]
    | succ j => rw [hxs,hys,← List.getElem?_take_of_lt hj,heq,List.getElem?_take_of_lt hj]
  rcases h with hpre | ⟨j,hlt,hbefore,⟨e,he,hidx,hne⟩,e',he',hnow⟩
  · refine .inl (hlow k ?_)
    have := List.prefix_iff_eq_take.mp hpre
    rw [List.length_take,min_eq_left hk] at this
    exact this.symm
  have hjk : j < k := lt_of_lt_of_le hlt (List.length_take_le _ _)
  rw [List.getElem?_take_of_lt hjk] at hne hnow
  rw [List.take_take,min_eq_left hjk.le] at hbefore
  refine .inr ⟨j + 1,hjk,fun i hi => hlow j hbefore i (Nat.le_of_lt_succ hi),⟨e,he,hidx,by rw [hxs]; exact hne⟩,e',?_,?_⟩
  · rw [hys,he']
  · rw [hxs]
    exact hnow

theorem Site.Sends.recovered {s₀ : Site} {i : Input} {m : Message} {l : RaftLog}
    (h : s₀.Sends maxSegmentSize S n i m l) (hs₀ : s₀.Reachable maxSegmentSize S) (ht : m.type = .appendResp)
    (hm : m.reject = false) (hr : Site.Run maxSegmentSize S (s₀.next maxSegmentSize S (.input n i)) s)
    (hn : n ∈ S.peers) {d : Disk.Dir} (hd : s.node n = .down d) {rand : Nat → Nat} {sv : Server}
    (hsv : Server.new maxSegmentSize (S.cfg n) d rand = some sv) :
    Retains (Site.Delivered maxSegmentSize S (s₀.next maxSegmentSize S (.input n i)) s n) m.term m.logIndex l
      sv.node.raftLog := by
  by_cases h0 : m.logIndex = 0
  · refine .inl fun k hk => ?_
    rw [show k = 0 by omega]
    simp [RaftLog.entry?]
  obtain ⟨c,H,xs,hI,hb,hbase,hrep,hlen,hu⟩ := h.upheld hs₀ ⟨ht,hm,h0⟩
  obtain ⟨c',H',hI',hb',hu'⟩ := hb.upheld hI (hu _) hr
  obtain ⟨hv,hl⟩ : Mirrors (.down d) (c'.host n) := hd ▸ hb'.nodes n hn
  obtain ⟨p,hp,hpk,_⟩ := (hI'.hosts n hn).disk.start hn hI'.good rand
  obtain ⟨sv',hnew,hruns⟩ := hl.start hp maxSegmentSize
  change Server.new maxSegmentSize (S.cfg n) d rand = some sv' at hnew
  rw [hsv] at hnew
  obtain rfl := Option.some.inj hnew
  have hclean := hpk.clean.1
  have hrep' := hpk.core.ok.log.repr
  rw [hruns.node] at hclean hrep'
  exact retains_of_upheld hbase hrep (hruns.base_index hclean) hrep' hlen hu'.log

/-- Node `a` stands, and wins with the votes of `b` and `c`. -/
def elect (a b c : Nat) : List Move :=
  [.tick a,.tick a,.recv .preVote a b 0,.recv .preVote a c 0,.recv .preVoteResp b a 0,.recv .preVoteResp c a 0,
    .recv .vote a b 0,.recv .vote a c 0,.recv .voteResp b a 0,.recv .voteResp c a 0]

/-- Node 3 wins term 3 without node 1 and node 2, brings node 2 its own log, and node 2 crashes. -/
def overtaken : List Move :=
  [.tick 3,.recv .heartbeat 3 2 0,.recv .heartbeatResp 2 3 0] ++ elect 3 4 5 ++
    [.recv .append 3 2 0,.recv .appendResp 2 3 0,.recv .append 3 2 0,.crash 2]

end Parallax.Drive
