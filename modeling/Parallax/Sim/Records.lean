import Parallax.Cluster.Lifecycle
import Parallax.Sim.Driver

/-! The commit records of the simulator's storages against the history of the cluster. What a record says is true of a
log that was committed by the record's term; a batch that is persisted keeps this so, and so does compaction. -/
namespace Parallax.Simulation
open Kv Sim Cluster Consensus Consensus.History
variable {S : Setup} {H H' : Hist} {n : Nat} {t : TrackedStorage Storage}

/-- What the record says is true of a log that was committed by its term. -/
def Records (H : Hist) (rec : CommittedRec) : Prop :=
  ∃ q, H.CommittedBy rec.commitTerm q ∧ 0 < rec.index ∧ rec.index ≤ q.length ∧
    (rec.termKnown = true → rec.term = termAt q rec.index) ∧
    (rec.dataKnown = true → ∃ e, q[rec.index - 1]? = some e ∧ rec.digest = fnv64 e.data)

theorem Records.ext {rec : CommittedRec} (h : Records H rec) (hx : Ext H H') : Records H' rec := by
  obtain ⟨q,hq,h⟩ := h
  exact ⟨q,hq.ext hx,h⟩

theorem Records.mono {rec : CommittedRec} {term : Nat} (h : Records H rec) (ht : rec.commitTerm ≤ term) :
    Records H { rec with commitTerm := term } := by
  obtain ⟨q,hq,h⟩ := h
  exact ⟨q,hq.mono ht,h⟩

/-- The records are true, and reach as far as what a start over the storage would take for committed. -/
structure Kept (H : Hist) (t : TrackedStorage Storage) : Prop where
  commit : t.durableCommit = max t.storage.hardState.commit t.storage.offset
  records : ∀ rec ∈ t.committed, Records H rec

theorem Kept.ext (h : Kept H t) (hx : Ext H H') : Kept H' t := ⟨h.commit,fun rec hrec => (h.records rec hrec).ext hx⟩

private theorem entriesIn_one {s : Storage} {xs : List Entry} (h : s.Repr xs) {i : Nat} (hlo : s.offset < i)
    (hhi : i ≤ xs.length) :
    ∃ e, xs[i - 1]? = some e ∧ s.entriesIn i (i + 1) = .ok [e] := by
  have hlen := h.lastIndex
  unfold Storage.lastIndex at hlen
  obtain ⟨e,he⟩ : ∃ e, xs[i - 1]? = some e := ⟨_,List.getElem?_eq_getElem (by omega)⟩
  have hat : s.entries[i - s.offset - 1]? = some e := by
    rw [h.entries,List.getElem?_drop,← he]
    congr 1
    omega
  refine ⟨e,he,?_⟩
  unfold Storage.entriesIn
  rw [if_neg (by omega),if_neg (by omega),if_neg (by omega),if_neg (by omega),
    show i + 1 - s.offset - 1 = i - s.offset - 1 + 1 by omega,List.take_add_one,hat,
    List.drop_append_of_le_length (by rw [List.length_take]; omega),List.drop_eq_nil_of_le (by rw [List.length_take]; omega)]
  rfl

private theorem mapM_ok {α β ε : Type} {f : α → Except ε β} {P : β → Prop} (as : List α)
    (h : ∀ a ∈ as, ∃ b, f a = .ok b ∧ P b) :
    ∃ bs, as.mapM f = .ok bs ∧ ∀ b ∈ bs, P b := by
  induction as with
  | nil => exact ⟨[],rfl,by simp⟩
  | cons a as ih =>
    obtain ⟨b,hb,hP⟩ := h a List.mem_cons_self
    obtain ⟨bs,hbs,hPs⟩ := ih fun a' ha' => h a' (List.mem_cons_of_mem _ ha')
    refine ⟨b :: bs,?_,by simpa using ⟨hP,hPs⟩⟩
    rw [List.mapM_cons,hb,hbs]
    rfl

theorem kept_enriched {hs : HardState} (hlo : t.storage.offset ≤ t.durableCommit) (hcom : t.durableCommit = hs.commit)
    (hrec : ∀ rec ∈ t.committed, Records H rec ∨
      rec.index ≤ hs.commit ∧ rec.commitTerm = 0 ∧ Records H { rec with commitTerm := hs.term }) :
    ∃ t', t.setHardState mem hs = (t',none) ∧ t'.storage = t.storage.setHardState hs ∧ Kept H t' := by
  have henrich : ∀ rec ∈ t.committed, Records H (if TrackedStorage.lacks hs.commit hs.term rec
      then { rec with commitTerm := hs.term } else rec) := by
    intro rec hmem
    split_ifs with hlack
    · rcases hrec rec hmem with h | ⟨_,_,h⟩
      · refine h.mono ?_
        simp only [TrackedStorage.lacks,Bool.and_eq_true,beq_iff_eq] at hlack
        omega
      · exact h
    rcases hrec rec hmem with h | ⟨hidx,hzero,h⟩
    · exact h
    have hterm : hs.term = 0 := by simpa [TrackedStorage.lacks,hidx,hzero] using hlack
    rw [hterm,← hzero] at h
    exact h
  unfold TrackedStorage.setHardState
  change ∃ t', TrackedStorage.recordCommitAdvance mem
    { t with storage := t.storage.setHardState hs, generation := t.generation + 1 } hs.commit hs.term = _ ∧ _
  unfold TrackedStorage.recordCommitAdvance
  rw [if_pos hcom.ge]
  refine ⟨_,rfl,rfl,?_,fun rec hmem => ?_⟩
  · change t.durableCommit = max hs.commit t.storage.offset
    omega
  rcases List.mem_append.mp hmem with hmem | hmem
  · obtain ⟨r,hr,rfl⟩ := List.mem_map.mp hmem
    exact henrich r hr
  · obtain ⟨r,hr,rfl⟩ := List.mem_map.mp hmem
    exact henrich r (List.mem_filter.mp hr).1

private theorem advanceRec_of_entry {snapshot : Snapshot} {commitTerm i : Nat} {e : Entry}
    (h : t.storage.entriesIn i (i + 1) = .ok [e]) : t.advanceRec mem snapshot commitTerm i =
      .ok { index := i, commitTerm, term := e.term, digest := fnv64 e.data, termKnown := true, dataKnown := true } := by
  have h : mem.entries t.storage i (i + 1) = .ok [e] := h
  unfold TrackedStorage.advanceRec
  rw [h]

theorem kept_advanced {xs : List Entry} {hs : HardState} (hrep : t.storage.Repr xs)
    (hlo : t.storage.offset ≤ t.durableCommit) (hcom : t.durableCommit < hs.commit) (hle : hs.commit ≤ xs.length)
    (hc : H.CommittedBy hs.term (xs.take hs.commit)) (hrec : ∀ rec ∈ t.committed, Records H rec) :
    ∃ t', t.setHardState mem hs = (t',none) ∧ t'.storage = t.storage.setHardState hs ∧ Kept H t' := by
  set t₁ : TrackedStorage Storage := { t with storage := t.storage.setHardState hs, generation := t.generation + 1 } with ht₁
  have hrep₁ : t₁.storage.Repr xs := hrep.congr rfl rfl
  obtain ⟨records,hrecs,hall⟩ := mapM_ok (P := Records H) (f := t₁.advanceRec mem t₁.storage.snapshot hs.term)
    (t₁.advance hs.commit) fun i hi => by
      have hi : t.durableCommit + 1 ≤ i ∧ i < t.durableCommit + 1 + (hs.commit - t.durableCommit) :=
        List.mem_range'_1.mp hi
      have hoff : t₁.storage.offset ≤ t.durableCommit := hlo
      obtain ⟨e,he,hread⟩ := entriesIn_one hrep₁ (i := i) (by omega) (by omega)
      have hat : (xs.take hs.commit)[i - 1]? = some e := by rw [List.getElem?_take_of_lt (by omega),he]
      refine ⟨_,advanceRec_of_entry hread,xs.take hs.commit,hc,?_,?_,fun _ => ?_,fun _ => ⟨e,hat,rfl⟩⟩
      · change 0 < i
        omega
      · change i ≤ _
        rw [List.length_take]
        omega
      · obtain ⟨j,rfl⟩ : ∃ j, i = j + 1 := ⟨i - 1,by omega⟩
        exact (termAt_succ_of_getElem? hat).symm
  have hrun : t.setHardState mem hs = ({ t₁ with committed := t.committed ++ records, durableCommit := hs.commit },none) := by
    change t₁.recordCommitAdvance mem hs.commit hs.term = _
    unfold TrackedStorage.recordCommitAdvance
    rw [if_neg (Nat.not_le.mpr hcom)]
    have hadvance : (t₁.advance hs.commit).mapM
        (t₁.advanceRec mem ((mem.snapshot t₁.storage).toOption.getD {}) hs.term) = .ok records := hrecs
    dsimp only
    rw [hadvance]
  refine ⟨_,hrun,rfl,?_,fun rec hmem => ?_⟩
  · change hs.commit = max hs.commit t.storage.offset
    omega
  · exact (List.mem_append.mp hmem).elim (hrec rec) (hall rec)

theorem grows_persist (id : Nat) (t : TrackedStorage Storage) (rd : Ready) : Grows t (World.persist id t rd).1 := by
  have h₁ : Grows t (rd.snapshot.elim (t,none) (t.applySnapshot mem)).1 := by
    cases rd.snapshot with
    | none => exact .refl t
    | some snap => exact .applySnapshot snap
  have h₂ : ∀ t₁ : TrackedStorage Storage,
      Grows t₁ (if rd.entries.length > 0 then t₁.appendEntries mem rd.entries else (t₁,none)).1 := by
    intro t₁
    split
    · exact .appendEntries _
    · exact .refl t₁
  have h₃ : ∀ t₂ : TrackedStorage Storage, Grows t₂ (rd.hardState.elim (t₂,none) (t₂.setHardState mem)).1 := by
    intro t₂
    cases rd.hardState with
    | none => exact .refl t₂
    | some hs => exact Grows.setHardState (S := mem) (t := t₂) hs
  unfold World.persist
  split
  · rename_i t₁ err heq
    rw [heq] at h₁
    exact h₁
  rename_i t₁ heq
  rw [heq] at h₁
  have h₂ := h₂ t₁
  split
  · rename_i t₂ err heq
    rw [heq] at h₂
    exact h₁.trans h₂
  rename_i t₂ heq
  rw [heq] at h₂
  have h₃ := h₃ t₂
  split
  all_goals
    rename_i heq
    rw [heq] at h₃
    exact (h₁.trans h₂).trans h₃

theorem persist_eq {id : Nat} {t t₁ t₂ t₃ : TrackedStorage Storage} {rd : Ready}
    (h₁ : rd.snapshot.elim (t,none) (t.applySnapshot mem) = (t₁,none))
    (h₂ : (if rd.entries.length > 0 then t₁.appendEntries mem rd.entries else (t₁,none)) = (t₂,none))
    (h₃ : rd.hardState.elim (t₂,none) (t₂.setHardState mem) = (t₃,none)) : World.persist id t rd = (t₃,none) := by
  unfold World.persist
  simp only [h₁,h₂,h₃]

private theorem append_stage {es : List Entry} {s : Storage} (h : t.storage.appendEntries es = .ok s) :
    ∃ t', (if es.length > 0 then t.appendEntries mem es else (t,none)) = (t',none) ∧ t'.storage = s ∧
      t'.durableCommit = t.durableCommit ∧ t'.committed = t.committed := by
  split
  · have h : mem.appendEntries t.storage es = .ok s := h
    unfold TrackedStorage.appendEntries
    rw [h]
    exact ⟨_,rfl,rfl,rfl,rfl⟩
  rename_i hnil
  obtain rfl : es = [] := List.length_eq_zero_iff.mp (by omega)
  exact ⟨t,rfl,Except.ok.inj h,rfl,rfl⟩

theorem snapshot_stage {snap : Snapshot} {s : Storage} (h : t.storage.applySnapshot snap = .ok s) :
    ∃ t', t.applySnapshot mem snap = (t',none) ∧ t'.storage = s ∧
      t'.durableCommit = max t.durableCommit snap.metadata.index ∧ ∀ rec ∈ t'.committed, rec ∈ t.committed ∨
        t.durableCommit < rec.index ∧ rec.index ≤ snap.metadata.index ∧ rec = TrackedStorage.snapshotRec snap rec.index := by
  have h : mem.applySnapshot t.storage snap = .ok s := h
  unfold TrackedStorage.applySnapshot
  rw [h]
  dsimp only
  split
  · rename_i hgt
    refine ⟨_,rfl,rfl,by dsimp only; omega,fun rec hrec => ?_⟩
    rcases List.mem_append.mp hrec with hrec | hrec
    · exact .inl hrec
    obtain ⟨i,hi,rfl⟩ := List.mem_map.mp hrec
    have hi : t.durableCommit + 1 ≤ i ∧ i < t.durableCommit + 1 + (snap.metadata.index - t.durableCommit) :=
      List.mem_range'_1.mp hi
    have hidx : (TrackedStorage.snapshotRec snap i).index = i := by
      unfold TrackedStorage.snapshotRec
      split <;> rfl
    rw [hidx]
    exact .inr ⟨by omega,by omega,rfl⟩
  · rename_i hle
    exact ⟨_,rfl,rfl,by dsimp only; omega,fun rec hrec => .inl hrec⟩

theorem records_snapshot {term : Nat} {snap : Snapshot} (h : SnapOK S H term snap) {i : Nat} (hpos : 0 < i)
    (hle : i ≤ snap.metadata.index) : Records H { TrackedStorage.snapshotRec snap i with commitTerm := term } := by
  obtain ⟨q,hlen,hq,hterm,_⟩ := h
  unfold TrackedStorage.snapshotRec
  split_ifs with heq
  · refine ⟨q,hq,hpos,by rw [hlen]; exact hle,fun _ => ?_,fun hk => ?_⟩
    · simp only
      rw [hterm,hlen,heq]
    · cases hk
  · exact ⟨q,hq,hpos,by rw [hlen]; exact hle,fun hk => (by cases hk),fun hk => (by cases hk)⟩

theorem tracked_persist {d : Storage} {p : Peer S.app} (h : Undrained S H n d p) {rd : Ready}
    (hrd : p.raft.ready = .ok rd) (ht : p.raft.raftLog.storage = t.storage) (hk : Kept H t) (id : Nat) :
    ∃ t', World.persist id t rd = (t',none) ∧ Cluster.persist t.storage rd = .ok t'.storage ∧ Kept H t' := by
  have hlog := h.core.ok.log
  have hr := hlog.readyOf hrd
  obtain ⟨s₁,s₂,hs₁,hs₂,hrep,hsn,hhs⟩ := hlog.repr.persisted fun snap hs => (hlog.pending snap hs).2
  rw [← hr.snapshot,ht] at hs₁
  rw [← hr.entries] at hs₂
  rw [ht] at hhs hsn
  have hbehind : t.storage.hardState.commit ≤ p.raft.raftLog.committed := ht ▸ h.mirror.2.2
  have hbase := hlog.base_le.trans hlog.applied_le
  have hprev : t.durableCommit = p.raft.prevHardSt.commit := by
    rw [hk.commit,← ht]
    exact h.recover
  -- The snapshot, if any: what is recorded then reaches as far as the storage's boundary, and not beyond what is committed.
  obtain ⟨t₁,ht₁,hst₁,hlo₁,hhi₁,hrec₁⟩ : ∃ t₁, rd.snapshot.elim (t,none) (t.applySnapshot mem) = (t₁,none) ∧
      t₁.storage = s₁ ∧ s₂.offset ≤ t₁.durableCommit ∧ t₁.durableCommit ≤ p.raft.raftLog.committed ∧
      ((t₁.durableCommit = t.durableCommit ∧ ∀ rec ∈ t₁.committed, Records H rec) ∨
        (t.durableCommit < p.raft.raftLog.committed ∧ t₁.durableCommit = p.raft.raftLog.committed ∧
          ∀ rec ∈ t₁.committed, Records H rec ∨ rec.index ≤ p.raft.raftLog.committed ∧ rec.commitTerm = 0 ∧
            Records H { rec with commitTerm := p.raft.term })) := by
    have hoff₂ : s₂.offset = p.raft.raftLog.base.index := by
      rw [Storage.offset,hsn,← ht]
      exact congrArg SnapshotMetadata.index p.raft.raftLog.metadata_getD
    cases hsnap : p.raft.raftLog.unstable.snapshot with
    | none =>
      rw [hr.snapshot,hsnap] at hs₁ ⊢
      have hoff : s₂.offset = t.storage.offset := by rw [Storage.offset,hsn,hsnap]; rfl
      refine ⟨t,rfl,Except.ok.inj hs₁,?_,?_,.inl ⟨rfl,hk.records⟩⟩
      · rw [hk.commit,hoff]
        exact le_max_right _ _
      · rw [hk.commit,← hoff,hoff₂]
        exact max_le hbehind hbase
    | some snap =>
      rw [hr.snapshot,hsnap] at hs₁ ⊢
      obtain ⟨_,_,hcom⟩ := h.pending snap hsnap
      have hoff : t.storage.offset ≤ snap.metadata.index := by
        by_contra hgt
        rw [Option.elim_some,Storage.applySnapshot,if_pos (by omega)] at hs₁
        cases hs₁
      obtain ⟨t₁,ht₁,hst₁,hdc,hrecs⟩ := snapshot_stage hs₁
      have hle : t.durableCommit ≤ snap.metadata.index := by
        rw [hk.commit,← hcom]
        exact max_le hbehind (by rw [hcom]; exact hoff)
      rw [max_eq_right hle,← hcom] at hdc
      refine ⟨t₁,ht₁,hst₁,?_,hdc.le,?_⟩
      · rw [hoff₂,hdc]
        exact hbase
      rcases Nat.lt_or_eq_of_le hle with hlt | heq
      · refine .inr ⟨hcom ▸ hlt,hdc,fun rec hrec => ?_⟩
        rcases hrecs rec hrec with hold | ⟨hgt,hidx,heq⟩
        · exact .inl (hk.records rec hold)
        refine .inr ⟨hcom ▸ hidx,?_,?_⟩
        · rw [heq]
          unfold TrackedStorage.snapshotRec
          split <;> rfl
        · have := records_snapshot (hlog.pending snap hsnap).1 (i := rec.index) (by omega) hidx
          rwa [← heq] at this
      refine .inl ⟨hdc.trans (hcom.trans heq.symm),fun rec hrec => ?_⟩
      rcases hrecs rec hrec with hold | ⟨hgt,hidx,_⟩
      · exact hk.records rec hold
      · omega
  obtain ⟨t₂,ht₂,hst₂,hdc₂,hrec₂⟩ := append_stage (hst₁.symm ▸ hs₂)
  have hpst : Cluster.persist t.storage rd = .ok (rd.hardState.elim s₂ s₂.setHardState) := by
    unfold Cluster.persist
    simp only [hs₁,hs₂]
  rw [← hst₂] at hrep hpst hlo₁
  rw [← hdc₂] at hlo₁ hhi₁ hrec₁
  rw [← hrec₂] at hrec₁
  have hhard := hr.hardState
  by_cases hne : p.raft.hardState ≠ p.raft.prevHardSt
  · rw [if_pos hne] at hhard
    rw [hhard] at hpst
    have hfin : ∃ t₃, t₂.setHardState mem p.raft.hardState = (t₃,none) ∧
        t₃.storage = t₂.storage.setHardState p.raft.hardState ∧ Kept H t₃ := by
      rcases Nat.lt_or_eq_of_le hhi₁ with hlt | heq
      · refine kept_advanced hrep hlo₁ hlt hlog.commit_le hlog.committed ?_
        rcases hrec₁ with ⟨_,hrec⟩ | ⟨_,heq,_⟩
        · exact hrec
        · omega
      refine kept_enriched hlo₁ heq fun rec hrec => ?_
      rcases hrec₁ with ⟨_,hall⟩ | ⟨_,_,hall⟩
      · exact .inl (hall rec hrec)
      · exact hall rec hrec
    obtain ⟨t₃,ht₃,hst₃,hk₃⟩ := hfin
    refine ⟨t₃,persist_eq ht₁ ht₂ (by rw [hhard]; exact ht₃),?_,hk₃⟩
    rw [hpst,hst₃]
    rfl
  rw [if_neg hne] at hhard
  rw [hhard] at hpst
  refine ⟨t₂,persist_eq ht₁ ht₂ (by rw [hhard]; rfl),hpst,?_,?_⟩
  · have hcom : p.raft.prevHardSt.commit = p.raft.raftLog.committed := by
      rw [← not_not.mp hne]
      rfl
    rcases hrec₁ with ⟨heq,_⟩ | ⟨hlt,_⟩
    · have hst : max t₂.storage.hardState.commit t₂.storage.offset = p.raft.raftLog.committed :=
        h.persist_recover hrd (by rw [hst₂,hsn,ht]) (by rw [hst₂,hhs,hhard,ht]; rfl)
      rw [heq,hprev,hcom,hst]
    · omega
  rcases hrec₁ with ⟨_,hall⟩ | ⟨hlt,_⟩
  · exact hall
  have hcom : p.raft.prevHardSt.commit = p.raft.raftLog.committed := by
    rw [← not_not.mp hne]
    rfl
  omega

end Parallax.Simulation
