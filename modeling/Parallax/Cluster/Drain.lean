import Parallax.Cluster.Inputs
import Parallax.Raft.Effect

/-! One drain: the batch is persisted, surfaced and acknowledged, and the log it leaves
behind is the one it found, with nothing pending. -/
namespace Parallax

theorem RaftLog.metadata_getD (l : RaftLog) : (l.unstable.snapshot.getD l.storage.snapshot).metadata = l.base := by
  unfold RaftLog.base
  cases l.unstable.snapshot <;> rfl

namespace Cluster
open Consensus Consensus.History
variable {S : Setup} {H : Hist} {n : Nat}

/-- What is on disk: the node's log, and a hard state whose commit index is backed. -/
structure DiskOK (S : Setup) (H : Hist) (n : Nat) (d : Storage) : Prop where
  repr : d.Repr (H.log n)
  snap : SnapOK S H d.hardState.term d.snapshot
  durable : Durable S H n d.hardState.term d.hardState.vote
  commit_le : d.hardState.commit ≤ (H.log n).length
  committed : H.CommittedBy d.hardState.term ((H.log n).take d.hardState.commit)

/-- `hs` is a hard state of the core's term and vote with an earlier commit index. -/
def Behind (hs : HardState) (r : Raft) : Prop :=
  hs.term = r.term ∧ hs.vote = r.vote ∧ hs.commit ≤ r.raftLog.committed

/-- A running node between inputs, over the disk `d`. -/
structure PeerOK (S : Setup) (H : Hist) (n : Nat) (d : Storage) (p : Peer S.app) : Prop where
  core : At S H n p.raft
  clean : p.raft.raftLog.Clean
  msgs : p.raft.msgs = []
  reads : p.raft.readStates = []
  prev : p.raft.prevHardSt = p.raft.hardState
  entries : p.raft.raftLog.storage.entries = d.entries
  snapshot : p.raft.raftLog.storage.snapshot = d.snapshot
  mirror : Behind p.raft.raftLog.storage.hardState p.raft
  /-- A start over the storage recovers the commit index. -/
  recover : max p.raft.raftLog.storage.hardState.commit p.raft.raftLog.storage.offset = p.raft.raftLog.committed
  disk : Behind d.hardState p.raft
  buf : ∀ rec ∈ p.buf, ∃ hs, rec = .hardState hs ∧ Behind hs p.raft
  applied : p.applied = p.raft.raftLog.applied
  sm : p.sm = applyAll S.app ((H.log n).take p.applied)

structure HostOK (S : Setup) (H : Hist) (n : Nat) (h : Host S.app) : Prop where
  disk : DiskOK S H n h.disk
  peer : ∀ p, h.vol = some p → PeerOK S H n h.disk p

/-- Between an input and its drain. -/
structure Undrained (S : Setup) (H : Hist) (n : Nat) (d : Storage) (p : Peer S.app) : Prop where
  core : At S H n p.raft
  entries : p.raft.raftLog.storage.entries = d.entries
  snapshot : p.raft.raftLog.storage.snapshot = d.snapshot
  prev : p.raft.prevHardSt.term = d.hardState.term ∧ p.raft.prevHardSt.vote = d.hardState.vote
  mirror : p.raft.raftLog.storage.hardState.term = d.hardState.term ∧
    p.raft.raftLog.storage.hardState.vote = d.hardState.vote ∧
    p.raft.raftLog.storage.hardState.commit ≤ p.raft.raftLog.committed
  recover : max p.raft.raftLog.storage.hardState.commit p.raft.raftLog.storage.offset = p.raft.prevHardSt.commit
  commit : d.hardState.commit ≤ p.raft.raftLog.committed
  buf : ∀ rec ∈ p.buf, ∃ hs, rec = .hardState hs ∧ hs.term = d.hardState.term ∧
    hs.vote = d.hardState.vote ∧ hs.commit ≤ p.raft.raftLog.committed
  applied : p.raft.raftLog.unstable.snapshot = none → p.applied = p.raft.raftLog.applied
  pending : ∀ snap, p.raft.raftLog.unstable.snapshot = some snap →
    p.applied < snap.metadata.index ∧ p.raft.raftLog.applied = snap.metadata.index ∧
      p.raft.raftLog.committed = snap.metadata.index
  sm : p.sm = applyAll S.app ((H.log n).take p.applied) ∨ ∃ snap, p.raft.raftLog.unstable.snapshot = some snap

/-- A drain changes the log's persistence marks and empties the outputs, nothing else. -/
def Drained (r r' : Raft) : Prop := ∃ l hs,
  r' = { r with raftLog := l, prevHardSt := hs, msgs := [], readStates := [] } ∧
  l.committed = r.raftLog.committed

/-- What a batch says of the core it was taken from, whose whole log is `xs`. -/
structure ReadyOf (r : Raft) (xs : List Entry) (rd : Ready) : Prop where
  messages : rd.messages = r.msgs
  committedEntries : rd.committedEntries = (xs.take r.raftLog.committed).drop r.raftLog.applied
  entries : rd.entries = r.raftLog.unstable.entries
  snapshot : rd.snapshot = r.raftLog.unstable.snapshot
  readStates : rd.readStates = r.readStates
  hardState : rd.hardState = if r.hardState ≠ r.prevHardSt then some r.hardState else none
  unsynced : rd.mustSync = false → r.raftLog.Clean ∧ r.term = r.prevHardSt.term ∧ r.vote = r.prevHardSt.vote

theorem LogOK.exists_ready {r : Raft} {t : Nat} (h : LogOK S H n t r.raftLog) :
    ∃ rd, r.ready = .ok rd ∧ ReadyOf r (H.log n) rd := by
  unfold Raft.ready
  rw [h.repr.nextCommittedEnts h.base_le h.commit_le]
  refine ⟨_,rfl,rfl,rfl,rfl,rfl,rfl,rfl,?_⟩
  simp only [Bool.or_eq_false_iff,decide_eq_false_iff_not]
  rintro ⟨⟨he,hs⟩,hh⟩
  refine ⟨⟨by simpa using hs,by simpa using he⟩,?_⟩
  by_cases heq : r.hardState = r.prevHardSt
  · rw [← heq]
    exact ⟨rfl,rfl⟩
  · rw [if_pos heq,Option.any_some] at hh
    simpa [Raft.hardState] using hh

theorem LogOK.readyOf {r : Raft} {t : Nat} (h : LogOK S H n t r.raftLog) {rd : Ready} (hrd : r.ready = .ok rd) :
    ReadyOf r (H.log n) rd := by
  obtain ⟨rd',hrd',hrep⟩ := h.exists_ready
  rw [hrd] at hrd'
  obtain rfl := Except.ok.inj hrd'
  exact hrep

theorem ReadyOf.prevHardSt {r : Raft} {xs : List Entry} {rd : Ready} (h : ReadyOf r xs rd) :
    rd.hardState.getD r.prevHardSt = r.hardState := by
  rw [h.hardState]
  split_ifs with hne
  · rfl
  · exact (not_not.mp hne).symm

theorem foldl_applyEntry {A : App} {xs : List Entry} (hx : Indexed xs) (c : Nat) (hc : c ≤ xs.length)
    (k : Nat) : ∀ p : Peer A, p.applied + k = c → p.sm = applyAll A (xs.take p.applied) →
      ((xs.take c).drop p.applied).foldl Peer.applyEntry p =
        { p with applied := c, sm := applyAll A (xs.take c) } := by
  induction k with
  | zero =>
    intro p hp hsm
    rw [Nat.add_zero] at hp
    subst hp
    rw [List.drop_eq_nil_of_le (by simp),List.foldl_nil,← hsm]
  | succ k ih =>
    intro p hp hsm
    obtain ⟨e,he⟩ : ∃ e, xs[p.applied]? = some e := ⟨_,List.getElem?_eq_getElem (by omega)⟩
    have hcons : (xs.take c).drop p.applied = e :: (xs.take c).drop (p.applied + 1) := by
      rw [List.drop_eq_getElem?_toList_append,List.getElem?_take_of_lt (by omega),he]
      rfl
    have happ : Peer.applyEntry p e = { p with applied := p.applied + 1, sm := A.apply p.sm e } := by
      unfold Peer.applyEntry
      rw [hx _ e he,if_neg (by omega)]
    have hstep : applyAll A (xs.take (p.applied + 1)) = A.apply p.sm e := by
      rw [List.take_add_one,he,hsm]
      simp [applyAll]
    rw [hcons,List.foldl_cons,happ,ih _ (by simp only; omega) hstep.symm]

/-- The storage a batch leaves behind holds the whole log. -/
theorem Undrained.persist {d : Storage} {p : Peer S.app} (h : Undrained S H n d p) {rd : Ready}
    (hrd : p.raft.ready = .ok rd) : ∃ st, Cluster.persist p.raft.raftLog.storage rd = .ok st ∧
      st.Repr (H.log n) ∧ SnapOK S H p.raft.term st.snapshot ∧
      st.snapshot = p.raft.raftLog.unstable.snapshot.getD p.raft.raftLog.storage.snapshot ∧
      st.hardState = rd.hardState.getD p.raft.raftLog.storage.hardState := by
  have hlog := h.core.ok.log
  have hrd := hlog.readyOf hrd
  obtain ⟨s₁,s₂,hs₁,hs₂,hrep,hsn,hhs⟩ := hlog.repr.persisted fun snap hs => (hlog.pending snap hs).2
  rw [← hrd.snapshot] at hs₁
  rw [← hrd.entries] at hs₂
  have hsnap : SnapOK S H p.raft.term s₂.snapshot := by
    rw [hsn]
    cases hs : p.raft.raftLog.unstable.snapshot with
    | some snap => exact (hlog.pending snap hs).1
    | none => exact hlog.snap
  unfold Cluster.persist
  simp only [hs₁,hs₂]
  cases rd.hardState with
  | none => exact ⟨s₂,rfl,hrep,hsnap,hsn,hhs⟩
  | some hs => exact ⟨s₂.setHardState hs,rfl,hrep.congr rfl rfl,hsnap,hsn,rfl⟩

/-- The log after `Advance`. -/
theorem LogOK.advance_raftLog {r : Raft} {t : Nat} (h : LogOK S H n t r.raftLog) (st : Storage) {rd : Ready}
    (hrd : r.ready = .ok rd) : ({ r with raftLog := { r.raftLog with storage := st } }.advance rd).raftLog =
      { r.raftLog with
        storage := st
        unstable := { offset := (H.log n).length + 1 }
        applied := r.raftLog.committed } := by
  have hrd := h.readyOf hrd
  have ha := h.applied_le
  have hlen : (((H.log n).take r.raftLog.committed).drop r.raftLog.applied).length =
      r.raftLog.committed - r.raftLog.applied := by
    rw [List.length_drop,List.length_take_of_le h.commit_le]
  have hack := h.repr.acknowledged st
  unfold Raft.advance
  simp only [hrd.entries,hrd.snapshot,hrd.committedEntries]
  rw [hack]
  cases hl : (((H.log n).take r.raftLog.committed).drop r.raftLog.applied).getLast? with
  | none =>
    rw [List.getLast?_eq_none_iff.mp hl,List.length_nil] at hlen
    simp only [Option.elim_none]
    congr 1
    omega
  | some last =>
    have hidx : IndexedFrom r.raftLog.applied (((H.log n).take r.raftLog.committed).drop r.raftLog.applied) :=
      (h.repr.indexed.of_isPrefix (List.take_prefix _ _)).from_drop _
    have hi := hidx.getLast hl
    have hpos := List.length_pos_of_mem (List.mem_of_getLast? hl)
    rw [hlen] at hi hpos
    simp only [Option.elim_some,RaftLog.appliedTo]
    rw [if_neg (by omega),if_neg (by omega)]
    congr 1
    omega

theorem At.disk {r : Raft} (h : At S H n r) {s : Storage} (h1 : s.Repr (H.log n))
    (h2 : SnapOK S H r.term s.snapshot) (h3 : Behind s.hardState r) : DiskOK S H n s := by
  have ho := h.ok
  refine ⟨h1,by rw [h3.1]; exact h2,by rw [h3.1,h3.2.1]; exact ho.durable,
    h3.2.2.trans ho.log.commit_le,?_⟩
  rw [h3.1]
  exact ho.log.committed.of_isPrefix (List.take_prefix_take_left h3.2.2)

namespace Undrained
variable {d : Storage} {p : Peer S.app}

/-- Without anything to do the node is between inputs already. -/
theorem idle (h : Undrained S H n d p) (hr : p.raft.hasReady = false) :
    DiskOK S H n d ∧ PeerOK S H n d p := by
  have ho := h.core.ok
  unfold Raft.hasReady at hr
  simp only [Bool.or_eq_false_iff,decide_eq_false_iff_not,Nat.not_lt,Nat.le_zero,gt_iff_lt,
    List.length_eq_zero_iff,Option.isSome_eq_false_iff,Option.isNone_iff_eq_none,bne_eq_false_iff_eq] at hr
  obtain ⟨⟨⟨⟨⟨hm,hrs⟩,he⟩,hs⟩,_⟩,hh⟩ := hr
  have hclean : p.raft.raftLog.Clean := ⟨hs,he⟩
  have hterm : p.raft.term = d.hardState.term := by rw [← h.prev.1,← hh]; rfl
  have hvote : p.raft.vote = d.hardState.vote := by rw [← h.prev.2,← hh]; rfl
  have hst := (ho.log.repr.storage hclean).congr h.snapshot.symm h.entries.symm
  refine ⟨⟨hst,?_,?_,?_,?_⟩,?_⟩
  · rw [← hterm,← h.snapshot]
    exact ho.log.snap
  · rw [← hterm,← hvote]
    exact ho.durable
  · exact h.commit.trans ho.log.commit_le
  · rw [← hterm]
    exact ho.log.committed.of_isPrefix (List.take_prefix_take_left h.commit)
  refine ⟨h.core,hclean,hm,hrs,hh.symm,h.entries,h.snapshot,?_,?_,?_,?_,h.applied hs,?_⟩
  · exact ⟨h.mirror.1.trans hterm.symm,h.mirror.2.1.trans hvote.symm,h.mirror.2.2⟩
  · rw [h.recover,← hh]
    rfl
  · exact ⟨hterm.symm,hvote.symm,h.commit⟩
  · intro rec hrec
    obtain ⟨hs',rfl,h1,h2,h3⟩ := h.buf rec hrec
    exact ⟨hs',rfl,h1.trans hterm.symm,h2.trans hvote.symm,h3⟩
  rcases h.sm with h | ⟨snap,hsn⟩
  · exact h
  · rw [hs] at hsn
    cases hsn

theorem finish (h : Undrained S H n d p) {rd : Ready} (hrd : p.raft.ready = .ok rd) (st : Storage)
    (buf : List Rec) : ∃ r, r = { p.raft with raftLog := { p.raft.raftLog with storage := st } }.advance rd ∧
      ({ p with buf := buf } : Peer S.app).finish st rd = some
        { raft := r, buf := buf, applied := p.raft.raftLog.committed
          sm := applyAll S.app ((H.log n).take p.raft.raftLog.committed) } := by
  have ho := h.core.ok
  have hlog := ho.log
  have hrep := hlog.readyOf hrd
  refine ⟨_,rfl,?_⟩
  have hidx : Indexed (H.log n) := hlog.repr.indexed
  have hfail : ({ p.raft with raftLog := { p.raft.raftLog with storage := st } }.advance rd).failed = false := by
    unfold Raft.failed
    rw [hlog.advance_raftLog st hrd]
    have hp : ({ p.raft with raftLog := { p.raft.raftLog with storage := st } }.advance rd).panicked = none :=
      ho.panicked
    rw [hp]
    simp [hlog.panicked]
  -- Both ways lead to a peer that has applied what the core has.
  obtain ⟨p₁,hp₁,hraft,hbuf,happ,hsm⟩ : ∃ p₁ : Peer S.app,
      rd.snapshot.elim (some { p with buf := buf }) ({ p with buf := buf } : Peer S.app).applySnapshot = some p₁ ∧
      p₁.raft = p.raft ∧ p₁.buf = buf ∧ p₁.applied = p.raft.raftLog.applied ∧
      p₁.sm = applyAll S.app ((H.log n).take p₁.applied) := by
    rw [hrep.snapshot]
    cases hs : p.raft.raftLog.unstable.snapshot with
    | none =>
      refine ⟨_,rfl,rfl,rfl,h.applied hs,?_⟩
      rcases h.sm with h | ⟨snap,hsn⟩
      · exact h
      · rw [hs] at hsn
        cases hsn
    | some snap =>
      obtain ⟨hlt,hap,_⟩ := h.pending snap hs
      obtain ⟨q,hq,hqc,_,hdata⟩ := (hlog.pending snap hs).1
      have hdata := hdata (Nat.lt_of_le_of_lt (Nat.zero_le _) hlt)
      have hqlog : q <+: H.log n := by
        apply hlog.prefix_log h.core.good hqc
        rw [hq,← hap]
        exact hlog.applied_le
      refine ⟨{ p with buf := buf, sm := applyAll S.app q, applied := snap.metadata.index },?_,rfl,rfl,hap.symm,?_⟩
      · simp only [Option.elim_some,Peer.applySnapshot]
        have hpos : snap.data.length > 0 := by
          rw [hdata]
          exact List.length_pos_iff.mpr (S.app.snapshot_ne _)
        rw [if_pos hpos,hdata,S.app.restore_snapshot,if_pos hlt]
        rfl
      · simp only
        rw [← hq,← List.prefix_iff_eq_take.mp hqlog]
  unfold Peer.finish
  rw [hp₁]
  simp only [Option.bind_some]
  have hfold := foldl_applyEntry hidx p.raft.raftLog.committed hlog.commit_le
    (p.raft.raftLog.committed - p.raft.raftLog.applied) p₁ (by have := hlog.applied_le; omega) hsm
  have hce' : rd.committedEntries = ((H.log n).take p.raft.raftLog.committed).drop p₁.applied := by
    rw [hrep.committedEntries,happ]
  rw [hce',hfold]
  simp only [hraft]
  rw [hfail]
  simp [hbuf]

/-- The core after `Advance` over the persisted storage. -/
theorem advance_ok (h : Undrained S H n d p) {rd : Ready} (hrd : p.raft.ready = .ok rd) {st : Storage}
    (hst : st.Repr (H.log n)) (hsn : st.snapshot.metadata = p.raft.raftLog.base)
    (hsok : SnapOK S H p.raft.term st.snapshot) :
    Ok S H n ({ p.raft with raftLog := { p.raft.raftLog with storage := st } }.advance rd) := by
  have ho := h.core.ok
  have hlog := ho.log
  have hl := hlog.advance_raftLog st hrd
  refine { ho with log := ?_, com := fun hs => ?_, msgs := fun m hm => ?_, msgs_term := fun m hm => ?_, probes := fun m hm => ?_ }
  · change LogOK S H n p.raft.term _
    rw [hl]
    refine ⟨hlog.panicked,RaftLog.Repr.of_storage hst rfl,?_,le_rfl,hlog.commit_le,hlog.committed,hsok,?_⟩
    · change st.snapshot.metadata.index ≤ p.raft.raftLog.committed
      rw [hsn]
      exact hlog.base_le.trans hlog.applied_le
    · intro snap hs
      cases hs
  · rw [hl]
    exact ho.com hs
  · cases hm
  · cases hm
  · cases hm

/-- What is stored carries the core's term and vote. -/
theorem persist_behind (h : Undrained S H n d p) {rd : Ready} (hrd : p.raft.ready = .ok rd) {st : Storage}
    (hst : st.hardState = rd.hardState.getD p.raft.raftLog.storage.hardState) :
    Behind st.hardState p.raft := by
  rw [hst,(h.core.ok.log.readyOf hrd).hardState]
  split_ifs with hne
  · exact ⟨rfl,rfl,le_rfl⟩
  have heq := not_not.mp hne
  refine ⟨?_,?_,h.mirror.2.2⟩
  · rw [Option.getD_none,h.mirror.1,← h.prev.1,← heq]
    rfl
  · rw [Option.getD_none,h.mirror.2.1,← h.prev.2,← heq]
    rfl

theorem persist_recover (h : Undrained S H n d p) {rd : Ready} (hrd : p.raft.ready = .ok rd) {st : Storage}
    (hsn : st.snapshot = p.raft.raftLog.unstable.snapshot.getD p.raft.raftLog.storage.snapshot)
    (hst : st.hardState = rd.hardState.getD p.raft.raftLog.storage.hardState) :
    max st.hardState.commit st.offset = p.raft.raftLog.committed := by
  have hlog := h.core.ok.log
  have hle : st.hardState.commit ≤ p.raft.raftLog.committed := (h.persist_behind hrd hst).2.2
  cases hs : p.raft.raftLog.unstable.snapshot with
  | some snap =>
    rw [hs,Option.getD_some] at hsn
    have hoff : st.offset = p.raft.raftLog.committed := by
      rw [(h.pending snap hs).2.2,Storage.offset,hsn]
    rw [hoff,max_eq_right hle]
  | none =>
    rw [hs,Option.getD_none] at hsn
    have hoff : st.offset = p.raft.raftLog.storage.offset := by rw [Storage.offset,hsn,Storage.offset]
    rw [hst,(hlog.readyOf hrd).hardState,hoff]
    split_ifs with hne
    · refine max_eq_left ?_
      have := hlog.base_le.trans hlog.applied_le
      unfold RaftLog.base at this
      rw [hs] at this
      exact this
    · rw [Option.getD_none,h.recover,← not_not.mp hne]
      rfl

theorem advance_prevHardSt (h : Undrained S H n d p) {rd : Ready} (hrd : p.raft.ready = .ok rd) (st : Storage) :
    ({ p.raft with raftLog := { p.raft.raftLog with storage := st } }.advance rd).prevHardSt =
      ({ p.raft with raftLog := { p.raft.raftLog with storage := st } }.advance rd).hardState := by
  have hlog := h.core.ok.log
  have hs : ({ p.raft with raftLog := { p.raft.raftLog with storage := st } }.advance rd).hardState =
      p.raft.hardState := by
    simp only [Raft.hardState,hlog.advance_raftLog st hrd]
    rfl
  rw [hs,← (hlog.readyOf hrd).prevHardSt]
  rfl

/-- `Advance` leaves nothing to do. -/
theorem advance_hasReady (h : Undrained S H n d p) {rd : Ready} (hrd : p.raft.ready = .ok rd) {st : Storage} :
    ({ p.raft with raftLog := { p.raft.raftLog with storage := st } }.advance rd).hasReady = false := by
  have hlog := h.core.ok.log
  have hl := hlog.advance_raftLog st hrd
  have hp := h.advance_prevHardSt hrd st
  set r := { p.raft with raftLog := { p.raft.raftLog with storage := st } }.advance rd with hr
  have hnext : r.raftLog.hasNextCommittedEnts = false := by
    rw [hl]
    simp only [RaftLog.hasNextCommittedEnts,decide_eq_false_iff_not]
    omega
  have hm : r.msgs = [] := rfl
  have hrs : r.readStates = [] := rfl
  unfold Raft.hasReady
  rw [hm,hrs,hnext,hp,hl]
  simp

theorem advanced (h : Undrained S H n d p) {rd : Ready} (hrd : p.raft.ready = .ok rd) {st : Storage}
    (hrep : st.Repr (H.log n)) (hsok : SnapOK S H p.raft.term st.snapshot)
    (hsn : st.snapshot = p.raft.raftLog.unstable.snapshot.getD p.raft.raftLog.storage.snapshot)
    (hst : st.hardState = rd.hardState.getD p.raft.raftLog.storage.hardState) {d' : Storage} {buf : List Rec}
    (hde : d'.entries = st.entries) (hds : d'.snapshot = st.snapshot) (hdb : Behind d'.hardState p.raft)
    (hbuf : ∀ rec ∈ buf, ∃ hs, rec = Rec.hardState hs ∧ Behind hs p.raft) :
    PeerOK S H n d'
      { raft := { p.raft with raftLog := { p.raft.raftLog with storage := st } }.advance rd, buf := buf
        applied := p.raft.raftLog.committed
        sm := applyAll S.app ((H.log n).take p.raft.raftLog.committed) } := by
  have hl := h.core.ok.log.advance_raftLog st hrd
  have hmeta : st.snapshot.metadata = p.raft.raftLog.base := hsn ▸ p.raft.raftLog.metadata_getD
  have hback : ∀ hs, Behind hs p.raft →
      Behind hs ({ p.raft with raftLog := { p.raft.raftLog with storage := st } }.advance rd) := by
    intro hs hb
    refine ⟨hb.1,hb.2.1,?_⟩
    rw [hl]
    exact hb.2.2
  refine ⟨⟨h.core.mem,h.core.good,h.advance_ok hrd hrep hmeta hsok⟩,?_,rfl,rfl,h.advance_prevHardSt hrd st,?_,?_,?_,?_,
    hback _ hdb,fun rec hrec => ?_,?_,rfl⟩
  · simp only [hl]
    exact ⟨rfl,rfl⟩
  · simp only [hl,hde]
  · simp only [hl,hds]
  · have := hback _ (h.persist_behind hrd hst)
    simpa only [hl] using this
  · simp only [hl]
    exact h.persist_recover hrd hsn hst
  · obtain ⟨hs,he,hb⟩ := hbuf rec hrec
    exact ⟨hs,he,hback hs hb⟩
  · simp only [hl]

theorem unsynced (h : Undrained S H n d p) {rd : Ready} (hrd : p.raft.ready = .ok rd) (hsync : rd.mustSync = false)
    {st : Storage} (hrep : st.Repr (H.log n))
    (hsn : st.snapshot = p.raft.raftLog.unstable.snapshot.getD p.raft.raftLog.storage.snapshot) :
    d.Repr (H.log n) ∧ d.entries = st.entries ∧ d.snapshot = st.snapshot ∧ Behind d.hardState p.raft ∧
      ∀ rec ∈ p.buf ++ records rd, ∃ hs, rec = Rec.hardState hs ∧ Behind hs p.raft := by
  have hlog := h.core.ok.log
  have hr := hlog.readyOf hrd
  obtain ⟨hcl,hterm,hvote⟩ := hr.unsynced hsync
  have hdrep := (hlog.repr.storage hcl).congr h.snapshot.symm h.entries.symm
  have hsn' : st.snapshot = d.snapshot := by
    rw [hsn,hcl.1,Option.getD_none,h.snapshot]
  have hdt : d.hardState.term = p.raft.term := by rw [hterm,h.prev.1]
  have hdv : d.hardState.vote = p.raft.vote := by rw [hvote,h.prev.2]
  refine ⟨hdrep,?_,hsn'.symm,⟨hdt,hdv,h.commit⟩,fun rec hrec => ?_⟩
  · rw [hdrep.entries,hrep.entries,Storage.offset,Storage.offset,hsn']
  rcases List.mem_append.mp hrec with hrec | hrec
  · obtain ⟨hs',rfl,h1,h2,h3⟩ := h.buf rec hrec
    exact ⟨hs',rfl,h1.trans hdt,h2.trans hdv,h3⟩
  unfold records at hrec
  rw [hr.entries,hcl.2,List.map_nil,List.nil_append,hr.hardState] at hrec
  split_ifs at hrec with hne
  · simp only [Option.toList_some,List.map_cons,List.map_nil,List.mem_singleton] at hrec
    exact ⟨_,hrec,rfl,rfl,le_rfl⟩
  · simp at hrec

theorem round (h : Undrained S H n d p) (flush : Bool) {hst : Host S.app} (hd : hst.disk = d) :
    ∃ rd h', hst.round p flush = (h',some rd) ∧ p.raft.ready = .ok rd ∧ HostOK S H n h' ∧
      ∃ p', h'.vol = some p' ∧ p'.raft.hasReady = false ∧ Drained p.raft p'.raft := by
  obtain ⟨rd,hrd,_⟩ := h.core.ok.log.exists_ready
  obtain ⟨st,hpst,hrep,hsok,hsn,hhst⟩ := h.persist hrd
  obtain ⟨r,hr,hfin⟩ := h.finish hrd st (if (rd.mustSync || flush) = true then [] else p.buf ++ records rd)
  have hl := h.core.ok.log.advance_raftLog st hrd
  rw [← hr] at hl
  have hbehind := h.persist_behind hrd hhst
  refine ⟨rd,{ disk := if (rd.mustSync || flush) = true then st else d
               vol := some { raft := r, buf := if (rd.mustSync || flush) = true then [] else p.buf ++ records rd
                             applied := p.raft.raftLog.committed
                             sm := applyAll S.app ((H.log n).take p.raft.raftLog.committed) } },?_,hrd,?_,_,rfl,
    hr ▸ h.advance_hasReady hrd,?_⟩
  rotate_left 2
  · exact ⟨r.raftLog,r.prevHardSt,by simp only; rw [hr]; rfl,by rw [hl]⟩
  · unfold Host.round
    rw [hrd]
    simp only [hpst]
    rw [hd,hfin]
  subst hr
  by_cases hsy : (rd.mustSync || flush) = true
  · simp only [hsy,if_true]
    refine ⟨h.core.disk hrep hsok hbehind,fun p' hp' => ?_⟩
    obtain rfl := Option.some.inj hp'
    exact h.advanced hrd hrep hsok hsn hhst rfl rfl hbehind (by simp)
  have hsync : rd.mustSync = false := by
    simp only [Bool.or_eq_true,not_or,Bool.not_eq_true] at hsy
    exact hsy.1
  obtain ⟨hdrep,hde,hds,hdb,hbuf⟩ := h.unsynced hrd hsync hrep hsn
  simp only [hsy,Bool.false_eq_true,if_false]
  refine ⟨h.core.disk hdrep (by rw [hds]; exact hsok) hdb,fun p' hp' => ?_⟩
  obtain rfl := Option.some.inj hp'
  exact h.advanced hrd hrep hsok hsn hhst hde hds hdb hbuf

theorem drain (h : Undrained S H n d p) (flush : Bool) (hst : Host S.app) (hd : hst.disk = d)
    (hv : hst.vol = some p) (k : Nat) : ∃ h' rds, hst.drain flush (k + 2) = (h',rds) ∧ HostOK S H n h' ∧
      (∃ p', h'.vol = some p' ∧ p'.raft.hasReady = false ∧ Drained p.raft p'.raft) ∧
      (rds = [] ∧ p.raft.hasReady = false ∨ ∃ rd, rds = [rd] ∧ p.raft.ready = .ok rd) := by
  unfold Host.drain
  rw [hv]
  simp only
  by_cases hr : p.raft.hasReady = true
  · rw [if_pos hr]
    obtain ⟨rd,h',hround,hrd,hok,p',hp',hready,hdr⟩ := h.round flush hd
    rw [hround]
    unfold Host.drain
    rw [hp']
    simp only [hready]
    exact ⟨h',[rd],rfl,hok,⟨p',hp',hready,hdr⟩,.inr ⟨rd,rfl,hrd⟩⟩
  rw [if_neg hr]
  have hr' : p.raft.hasReady = false := by simpa using hr
  obtain ⟨hdisk,hpeer⟩ := h.idle hr'
  have hdr : Drained p.raft p.raft :=
    ⟨p.raft.raftLog,p.raft.prevHardSt,by rw [← hpeer.msgs,← hpeer.reads],rfl⟩
  refine ⟨hst,[],rfl,⟨hd ▸ hdisk,fun p' hp' => ?_⟩,⟨p,hv,hr',hdr⟩,.inl ⟨rfl,hr'⟩⟩
  rw [hv] at hp'
  obtain rfl := Option.some.inj hp'
  exact hd ▸ hpeer

end Undrained
end Cluster
end Parallax
