import Parallax.Consensus.Rank
import Parallax.Raft.LogList
import Parallax.Raft.Same

/-! The commit rule of a leader: the greatest index that a majority has matched, if its entry is of the current term. -/
namespace Parallax

namespace RaftLog
variable {l : RaftLog}

theorem WF.maybeCommit_committed (hwf : l.WF) (hb : l.base.index ≤ l.committed) (i t : Nat) :
    (l.maybeCommit i t).1.committed =
      if l.committed < i ∧ (l.entry? i).map Entry.term = some t then i else l.committed := by
  obtain ⟨xs,h⟩ := hwf.repr
  unfold RaftLog.maybeCommit
  by_cases hi : l.committed < i
  swap
  · rw [if_neg hi,if_neg fun hc => hi hc.1]
  rw [if_pos hi,h.term_eq (by omega),h.entry?_eq (by omega)]
  obtain ⟨j,rfl⟩ : ∃ j, i = j + 1 := ⟨i - 1,by omega⟩
  rw [Nat.add_sub_cancel]
  simp only [hi,true_and]
  by_cases hj : j < xs.length
  · have hget := List.getElem?_eq_getElem hj
    rw [termAt_succ_of_getElem? hget,hget,Option.map_some]
    simp only [Option.some.injEq]
    split
    · rw [(h.commitTo_eq (by omega)).1]
      exact Nat.max_eq_right (by omega)
    · rfl
  -- Beyond the end there is no entry; a term of zero would panic and leave the index.
  simp only [List.getElem?_eq_none (by omega : xs.length ≤ j),Option.map_none,reduceCtorEq,if_false]
  split
  · unfold RaftLog.commitTo
    rw [if_pos hi,if_pos (by rw [h.lastIndex]; omega)]
    rfl
  · rfl

theorem WF.maybeCommit_panicked (hwf : l.WF) (hb : l.base.index ≤ l.committed) (i : Nat) {t : Nat} (ht : 0 < t) :
    (l.maybeCommit i t).1.panicked = l.panicked := by
  obtain ⟨xs,h⟩ := hwf.repr
  unfold RaftLog.maybeCommit
  by_cases hi : l.committed < i
  swap
  · rw [if_neg hi]
  rw [if_pos hi,h.term_eq (by omega)]
  simp only
  split
  · rename_i hm
    exact (h.commitTo_eq (Repr.le_length_of_termAt_pos (by omega))).2
  · rfl

private theorem maybeCommit_refused (i t : Nat) (h : (l.maybeCommit i t).2 = false) : (l.maybeCommit i t).1 = l := by
  unfold RaftLog.maybeCommit at h ⊢
  simp only at h ⊢
  split_ifs at h ⊢
  · rfl
  · rfl

end RaftLog

namespace Raft
variable {r : Raft}

/-- The Match value of a peer. -/
def matchOf (r : Raft) (id : Nat) : Nat := ((r.prs.lookup id).getD {}).matched

theorem matchValues_eq (h : ∀ id ∈ r.peers, (r.prs.lookup id).isSome) :
    r.matchValues = some (r.peers.map r.matchOf) := by
  unfold Raft.matchValues
  have hall : ∀ id ∈ r.peers, (r.prs.lookup id).map Progress.matched = some (r.matchOf id) := by
    intro id hid
    obtain ⟨pr,hpr⟩ := Option.isSome_iff_exists.mp (h id hid)
    rw [matchOf,hpr]
    rfl
  generalize r.peers = ps at hall
  induction ps with
  | nil => rfl
  | cons id ids ih =>
    rw [List.mapM_cons,hall id (by simp),ih fun id' hid' => hall id' (by simp [hid'])]
    rfl

theorem quorum_pos_le (hne : r.peers ≠ []) : 0 < r.quorum ∧ r.quorum ≤ r.peers.length := by
  have := List.length_pos_iff.mpr hne
  unfold quorum
  omega

/-- The position `maybeCommit` reads is inside the list. -/
theorem exists_candidate (hne : r.peers ≠ []) :
    ∃ i, ((r.peers.map r.matchOf).insertionSort (· ≤ ·))[(r.peers.map r.matchOf).length - r.quorum]? = some i := by
  obtain ⟨h0,hle⟩ := quorum_pos_le hne
  refine ⟨_,List.getElem?_eq_getElem ?_⟩
  rw [List.length_insertionSort,List.length_map]
  omega

private theorem maybeCommit_raftLog (hprs : ∀ id ∈ r.peers, (r.prs.lookup id).isSome) {i : Nat}
    (hi : ((r.peers.map r.matchOf).insertionSort (· ≤ ·))[(r.peers.map r.matchOf).length - r.quorum]? = some i) :
    r.maybeCommit.1.raftLog = (r.raftLog.maybeCommit i r.term).1 := by
  unfold Raft.maybeCommit
  rw [matchValues_eq hprs]
  simp only [List.length_insertionSort]
  rw [hi]
  simp only
  split
  · rename_i l hl
    have := RaftLog.maybeCommit_refused (l := r.raftLog) i r.term (by rw [hl])
    rw [this]
  rename_i l hl
  rw [hl]
  exact (releasePendingReadIndexMessages_same _).raftLog

/-- The element `maybeCommit` picks is the greatest index that a majority of the peers has
matched. The commit index becomes that index if it is above it and its entry is of the
current term, and stays otherwise. -/
theorem maybeCommit_rule (r : Raft) (hne : r.peers ≠ []) (hprs : ∀ id ∈ r.peers, (r.prs.lookup id).isSome)
    (hlog : r.raftLog.WF) (hb : r.raftLog.base.index ≤ r.raftLog.committed) :
    ∃ ms i, r.matchValues = some ms ∧ (ms.insertionSort (· ≤ ·))[ms.length - r.quorum]? = some i ∧
      IsGreatest {j | r.peers.length / 2 + 1 ≤ r.peers.countP (j ≤ r.matchOf ·)} i ∧
      r.maybeCommit.1.raftLog.committed =
        (if r.raftLog.committed < i ∧ (r.raftLog.entry? i).map Entry.term = some r.term then i
          else r.raftLog.committed) ∧
      r.raftLog.committed ≤ r.maybeCommit.1.raftLog.committed ∧
      (r.maybeCommit.1.raftLog.committed ≠ r.raftLog.committed →
        (r.raftLog.entry? r.maybeCommit.1.raftLog.committed).map Entry.term = some r.term) ∧
      (0 < r.term → r.maybeCommit.1.raftLog.panicked = r.raftLog.panicked) := by
  obtain ⟨i,hi⟩ := exists_candidate hne
  have hlogeq := maybeCommit_raftLog hprs hi
  have hc := hlog.maybeCommit_committed hb i r.term
  rw [← hlogeq] at hc
  have hgreat : IsGreatest {j | r.peers.length / 2 + 1 ≤ r.peers.countP (j ≤ r.matchOf ·)} i := by
    have hg := Consensus.isGreatest_reached (by rw [List.length_map]; exact (quorum_pos_le hne).2) hi
    unfold Consensus.Reached at hg
    simp only [List.countP_map] at hg
    exact hg
  refine ⟨_,i,matchValues_eq hprs,hi,hgreat,hc,?_,fun hne' => ?_,fun ht => ?_⟩
  · rw [hc]
    split
    · rename_i h
      exact Nat.le_of_lt h.1
    · exact le_rfl
  · rw [hc] at hne' ⊢
    split at hne'
    · rename_i h
      rw [if_pos h]
      exact h.2
    · exact absurd rfl hne'
  · rw [hlogeq]
    exact hlog.maybeCommit_panicked hb i ht

/-- A leader of four with two peers at index 3 and one behind. -/
def fourPeers : Raft where
  cfg := { id := 1, peers := [1,2,3,4], electionTicks := 2, heartbeatTicks := 1 }
  id := 1
  term := 2
  raftLog :=
    { storage := { entries := [{ term := 1, index := 1 }, { term := 1, index := 2 }, { term := 2, index := 3 },
        { term := 2, index := 4 }] }
      unstable := { offset := 5 }
      committed := 1
      applied := 1 }
  state := .leader
  lead := 1
  peers := [1,2,3,4]
  prs := [(1,4),(2,3),(3,3),(4,0)].foldl (fun prs (id,i) => prs.insert id { matched := i, next := i + 1 }) ∅
  heartbeatTimeout := 1
  rand := fun _ => 0

theorem maybeCommit_rule_fourPeers : ∃ ms i, fourPeers.matchValues = some ms ∧
    (ms.insertionSort (· ≤ ·))[ms.length - fourPeers.quorum]? = some i ∧
    IsGreatest {j | 3 ≤ fourPeers.peers.countP (j ≤ fourPeers.matchOf ·)} i := by
  obtain ⟨ms,i,hms,hi,hg,-⟩ := fourPeers.maybeCommit_rule (by decide) (by decide)
    ⟨⟨by simp [fourPeers],by decide,by decide,by decide⟩,by decide,by decide⟩ (by decide)
  exact ⟨ms,i,hms,hi,hg⟩

end Raft
end Parallax
