import Parallax.Cluster.Cycle

/-! The apply stream of an incarnation: the batches that a node surfaces from its start on leave no index out and
repeat none. -/
namespace Parallax

/-- The position once the snapshot of the batch is installed. -/
def Ready.installed (rd : Ready) (pos : Nat) : Nat := rd.snapshot.elim pos (·.metadata.index)

/-- The position once its entries are applied too. -/
def Ready.moves (rd : Ready) (pos : Nat) : Nat := rd.committedEntries.getLast?.elim (rd.installed pos) (·.index)

namespace Cluster
open Consensus Consensus.History
variable {S : Setup} {H H' : Hist} {s s' : State S.app} {n : Nat}

/-- The applied position of node `n`: its current incarnation starts at the snapshot of its storage, and every batch
moves it. -/
def position (n : Nat) : List Obs → Nat
  | [] => 0
  | .stepped m i r :: past => if m = n ∧ i = none then r.raftLog.storage.snapshot.metadata.index else position n past
  | .drained m rd :: past => if m = n then rd.moves (position n past) else position n past

/-- The batch `rd` of the core `r` continues at `pos` and goes on to the commit index. -/
structure Continues (pos : Nat) (r : Raft) (rd : Ready) : Prop where
  snapshot : ∀ snap, rd.snapshot = some snap → pos < snap.metadata.index
  consecutive : ∀ k e, rd.committedEntries[k]? = some e → e.index = rd.installed pos + 1 + k
  held : ∀ e ∈ rd.committedEntries, r.raftLog.entry? e.index = some e ∧ e.index ≤ r.raftLog.committed
  reaches : rd.moves pos = r.raftLog.committed

/-- What a record says about the stream of node `n`: the batch that an input leaves pending continues where the
records before it left the node, and a batch that was persisted is that of the input before it. -/
def Resumes (n : Nat) (past : List Obs) : Obs → Prop
  | .stepped m i r => m = n → i ≠ none → ∀ rd, r.ready = .ok rd → Continues (position n past) r rd
  | .drained m rd => m = n → ∃ i r older, past = .stepped n (some i) r :: older ∧ r.ready = .ok rd

theorem At.applied_of_idle {r : Raft} (h : At S H n r) (hr : r.hasReady = false) :
    r.raftLog.applied = r.raftLog.committed := by
  have hlog := h.ok.log
  have hnext : r.raftLog.hasNextCommittedEnts = false := by
    simp only [Raft.hasReady,Bool.or_eq_false_iff] at hr
    exact hr.1.2
  simp only [RaftLog.hasNextCommittedEnts,decide_eq_false_iff_not,hlog.repr.firstIndex] at hnext
  have := hlog.base_le
  have := hlog.applied_le
  omega

theorem Undrained.continues {d : Storage} {p : Peer S.app} (h : Undrained S H n d p) {rd : Ready}
    (hrd : p.raft.ready = .ok rd) : Continues p.applied p.raft rd := by
  have hlog := h.core.ok.log
  have hb := hlog.base_le
  have ha := hlog.applied_le
  have hc := hlog.commit_le
  have hr := hlog.readyOf hrd
  -- Entries go on from the core's applied index, which a pending snapshot has moved already.
  have hbase : rd.installed p.applied = p.raft.raftLog.applied := by
    unfold Ready.installed
    rw [hr.snapshot]
    cases hs : p.raft.raftLog.unstable.snapshot with
    | none => exact h.applied hs
    | some snap => exact (h.pending snap hs).2.1.symm
  have hidx : IndexedFrom p.raft.raftLog.applied rd.committedEntries := by
    rw [hr.committedEntries]
    exact (hlog.repr.indexed.of_isPrefix (List.take_prefix _ _)).from_drop _
  have hlen : rd.committedEntries.length = p.raft.raftLog.committed - p.raft.raftLog.applied := by
    rw [hr.committedEntries,List.length_drop,List.length_take_of_le hc]
  refine ⟨fun snap hs => (h.pending snap (hr.snapshot ▸ hs)).1,fun k e he => by rw [hbase]; exact hidx k e he,
    fun e he => ?_,?_⟩
  · obtain ⟨k,hk⟩ := List.mem_iff_getElem?.mp he
    have hi := hidx k e hk
    have hlt := (List.getElem?_eq_some_iff.mp hk).1
    refine ⟨?_,by omega⟩
    rw [hr.committedEntries,List.getElem?_drop,List.getElem?_take_of_lt (by omega)] at hk
    rw [hlog.repr.entry?_eq (by omega),hi,← hk]
    congr 1
    omega
  unfold Ready.moves
  cases hl : rd.committedEntries.getLast? with
  | none =>
    rw [List.getLast?_eq_none_iff.mp hl,List.length_nil] at hlen
    rw [Option.elim_none,hbase]
    omega
  | some last =>
    have := hidx.getLast hl
    have : rd.committedEntries ≠ [] := by rintro he; simp [he] at hl
    have := List.length_pos_iff.mpr this
    rw [Option.elim_some]
    omega

theorem Inv.ran_idle (h : Inv S s H) (hn : n ∈ S.peers) {p : Peer S.app} (hp : (s.host n).vol = some p) {i : Input}
    (hi : s.Admits n i) (flush : Bool) : ∃ p' os, ((s.next S (.input n i flush)).host n).vol = some p' ∧
      p'.raft.raftLog.applied = (i.run p.raft).raftLog.committed ∧
      p'.raft.raftLog.committed = (i.run p.raft).raftLog.committed ∧
      (s.next S (.input n i flush)).hist = os ++ .stepped n (some i) (i.run p.raft) :: s.hist ∧
      (os = [] ∧ (i.run p.raft).hasReady = false ∨ ∃ rd, os = [.drained n rd] ∧ (i.run p.raft).ready = .ok rd) := by
  obtain ⟨H',hun⟩ := h.undrained hn hp (i := some i) (by rintro j ⟨⟩; exact hi)
  have hfail : (i.run p.raft).failed = false := hun.core.ok.failed
  obtain ⟨h',rds,hdrain,hok,⟨p',hp',hidle,_,_,hraft,hc⟩,hrds⟩ := hun.drain flush
    { s.host n with vol := some { p with raft := i.run p.raft } } rfl rfl 2
  simp only [State.next,hp,hfail,Bool.false_eq_true,if_false,State.fuel,hdrain]
  have hcommit : p'.raft.raftLog.committed = (i.run p.raft).raftLog.committed := by
    rw [hraft]
    exact hc
  refine ⟨p',rds.reverse.map (.drained n),by simpa [State.setHost] using hp',?_,hcommit,rfl,?_⟩
  · rw [← hcommit]
    exact (hok.peer p' hp').core.applied_of_idle hidle
  rcases hrds with ⟨rfl,hr⟩ | ⟨rd,rfl,hrd⟩
  · exact .inl ⟨rfl,hr⟩
  · exact .inr ⟨rd,rfl,hrd⟩

theorem next_input {e : Event} {i : Input} (he : e.input? = some (n,i)) {p' : Peer S.app}
    (hp' : ((s.next S e).host n).vol = some p') : ∃ flush, e = .input n i flush := by
  cases e with
  | crash | restart | compact => cases he
  | input _ _ flush =>
    cases he
    exact ⟨flush,rfl⟩
  | torn =>
    cases he
    simp only [State.next] at hp'
    split at hp'
    · simp_all
    · simp [State.setHost] at hp'
  | unsent =>
    cases he
    simp only [State.next] at hp'
    split at hp'
    · simp_all
    split at hp'
    · simp [State.setHost] at hp'
    · split at hp' <;> simp [State.setHost] at hp'

/-- What the run so far says about node `n`. -/
structure Streams (s : State S.app) (n : Nat) : Prop where
  resumes : ∀ o past, (o :: past) <:+ s.hist → Resumes n past o
  current : ∀ p, (s.host n).vol = some p → position n s.hist = p.raft.raftLog.applied

theorem Streams.cons {o : Obs} {hist : List Obs} (h : ∀ o past, (o :: past) <:+ hist → Resumes n past o)
    (ho : Resumes n hist o) : ∀ o' past, (o' :: past) <:+ o :: hist → Resumes n past o' := by
  intro o' past hs
  rcases List.suffix_cons_iff.mp hs with heq | hs
  · cases heq
    exact ho
  · exact h o' past hs

theorem Inv.resumes (hI : Inv S s H) {q : Nat} (hq : q ∈ S.peers) {p : Peer S.app} (hp : (s.host q).vol = some p) {i : Input}
    (hi : s.Admits q i) (h : Streams s n) {os : List Obs}
    (hos : os = [] ∨ ∃ rd, os = [.drained q rd] ∧ (i.run p.raft).ready = .ok rd) :
    ∀ o past, (o :: past) <:+ os ++ .stepped q (some i) (i.run p.raft) :: s.hist → Resumes n past o := by
  have hstep := Streams.cons h.resumes (o := .stepped q (some i) (i.run p.raft)) (by
    rintro rfl - rd hrd
    obtain ⟨_,hun⟩ := hI.undrained hq hp (i := some i) (by rintro j ⟨⟩; exact hi)
    rw [h.current p hp,← ((hI.hosts _ hq).peer p hp).applied]
    exact hun.continues hrd)
  obtain rfl | ⟨rd,rfl,hrd⟩ := hos
  · exact hstep
  refine Streams.cons hstep ?_
  rintro rfl
  exact ⟨i,_,_,rfl,hrd⟩

theorem position_other {q : Nat} (hq : n ≠ q) {i : Input} {r : Raft} {hist os : List Obs} {P : Ready → Prop}
    (hos : os = [] ∨ ∃ rd, os = [.drained q rd] ∧ P rd) :
    position n (os ++ .stepped q (some i) r :: hist) = position n hist := by
  obtain rfl | ⟨rd,rfl,_⟩ := hos <;> simp [position,Ne.symm hq]

theorem Inv.position_input (hI : Inv S s H) (hn : n ∈ S.peers) {p : Peer S.app} (hp : (s.host n).vol = some p) {i : Input}
    (hi : s.Admits n i) (h : Streams s n) {os : List Obs}
    (hos : os = [] ∧ (i.run p.raft).hasReady = false ∨ ∃ rd, os = [.drained n rd] ∧ (i.run p.raft).ready = .ok rd) :
    position n (os ++ .stepped n (some i) (i.run p.raft) :: s.hist) = (i.run p.raft).raftLog.committed := by
  obtain ⟨_,hun⟩ := hI.undrained hn hp (i := some i) (by rintro j ⟨⟩; exact hi)
  have hpos : position n s.hist = p.applied := (h.current p hp).trans ((hI.hosts n hn).peer p hp).applied.symm
  obtain ⟨rfl,hidle⟩ | ⟨rd,rfl,hrd⟩ := hos
  · have hsnap : (i.run p.raft).raftLog.unstable.snapshot = none := (hun.idle hidle).2.clean.1
    simp only [List.nil_append,position,reduceCtorEq,and_false,if_false]
    rw [hpos]
    exact (hun.applied hsnap).trans (hun.core.applied_of_idle hidle)
  simp only [List.singleton_append,position,reduceCtorEq,and_false,if_false,if_true]
  rw [hpos]
  exact (hun.continues hrd).reaches

theorem Streams.step {e : Event} (hI : Inv S s H) (hc : Change S H H' s e (s.next S e)) (hn : n ∈ S.peers)
    (h : Streams s n) : Streams (s.next S e) n := by
  have hother : ∀ {q : Nat} {hst : Host S.app}, n ≠ q → (s.setHost q hst).host n = s.host n := fun hq => by
    simp [State.setHost,hq]
  have hself : ∀ {hst : Host S.app}, (s.setHost n hst).host n = hst := by simp [State.setHost]
  cases hc with
  | idle _ hs =>
    rw [hs]
    exact h
  | @ran q i p p₁ hst os he hq hi hp _ _ _ _ _ hos hs =>
    have hos' := hos.imp_left (·.1)
    refine ⟨by rw [hs]; exact hI.resumes hq hp hi h hos',fun p' hp' => ?_⟩
    by_cases hnq : n = q
    · subst hnq
      obtain ⟨flush,rfl⟩ := next_input he hp'
      obtain ⟨p₂,os₂,hp₂,happ,_,hhist,hos₂⟩ := hI.ran_idle hn hp hi flush
      obtain rfl := Option.some.inj (hp₂.symm.trans hp')
      rw [happ,hhist]
      exact hI.position_input hn hp hi h hos₂
    · rw [hs] at hp' ⊢
      exact (position_other hnq hos').trans (h.current p' (by rw [← hother hnq]; exact hp'))
  | @fell q _ _ _ hs =>
    rw [hs]
    refine ⟨h.resumes,fun p' hp' => ?_⟩
    by_cases hnq : n = q
    · subst hnq
      rw [hself] at hp'
      cases hp'
    · exact h.current p' (by rw [← hother hnq]; exact hp')
  | @died q i p d os _ he hq hi hp _ _ _ _ _ hos hs =>
    rw [hs]
    refine ⟨hI.resumes hq hp hi h hos,fun p' hp' => ?_⟩
    by_cases hnq : n = q
    · subst hnq
      change ((s.setHost n _).host n).vol = some p' at hp'
      rw [hself] at hp'
      cases hp'
    · exact (position_other hnq hos).trans (h.current p' (by rw [← hother hnq]; exact hp'))
  | @started q rand p _ _ _ _ hp hs =>
    rw [hs]
    refine ⟨Streams.cons h.resumes (by rintro - hi; exact absurd rfl hi),fun p' hp' => ?_⟩
    by_cases hnq : n = q
    · subst hnq
      change ((s.setHost n _).host n).vol = some p' at hp'
      rw [hself] at hp'
      obtain rfl := Option.some.inj hp'
      simp only [position,and_self,if_true]
      rw [hp,newRaft_raftLog,recoverLog_storage,recoverLog_applied]
      rfl
    · simp only [position,Ne.symm hnq,false_and,if_false]
      exact h.current p' (by rw [← hother hnq]; exact hp')
  | @compacted q hst _ _ _ _ hv hs =>
    rw [hs]
    refine ⟨h.resumes,fun p' hp' => ?_⟩
    by_cases hnq : n = q
    · subst hnq
      rw [hself] at hp'
      obtain ⟨p,st,hp,rfl⟩ := hv p' hp'
      exact h.current p hp
    · exact h.current p' (by rw [← hother hnq]; exact hp')

/-- The apply stream of every incarnation has no gaps and no repeats: every batch continues where the one before
left the node, or at the snapshot in storage for the first, a running core has applied what was surfaced, and after
an input and its drain that is everything committed. -/
theorem apply_stream (h : Reachable S s) (hn : n ∈ S.peers) :
    (∀ o past, (o :: past) <:+ s.hist → Resumes n past o) ∧
    (∀ p, (s.host n).vol = some p → position n s.hist = p.raft.raftLog.applied) ∧
    ∀ p, (s.host n).vol = some p → ∀ i, s.Admits n i → ∀ flush, ∃ p',
      ((s.next S (.input n i flush)).host n).vol = some p' ∧
      position n (s.next S (.input n i flush)).hist = p'.raft.raftLog.committed := by
  obtain ⟨H,_,hI,hs⟩ := (Inv.init S).runInduct (P := fun s _ => ∀ n ∈ S.peers, Streams s n)
    (fun n _ => ⟨by simp,fun p hp => nomatch hp⟩) (fun hI hc h n hn => (h n hn).step hI hc hn) h.runs
  refine ⟨(hs n hn).resumes,(hs n hn).current,fun p hp i hi flush => ?_⟩
  obtain ⟨p',os,hp',_,hc,hhist,hos⟩ := hI.ran_idle hn hp hi flush
  refine ⟨p',hp',?_⟩
  rw [hhist,hc]
  exact hI.position_input hn hp hi (hs n hn) hos

/-- The followers of the settled cluster have surfaced its one entry. -/
theorem apply_stream_settled : ∃ p, (settled.host 2).vol = some p ∧ position 2 settled.hist = p.raft.raftLog.applied := by
  obtain ⟨p,hp,_⟩ := settled_member
  exact ⟨p,hp,(apply_stream settled_reachable (by decide)).2.1 p hp⟩

example : position 2 settled.hist = 1 := by decide +kernel

end Cluster
end Parallax
