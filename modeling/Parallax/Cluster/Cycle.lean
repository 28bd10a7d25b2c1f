import Parallax.Cluster.Safety

/-! One Ready cycle: it changes where the log is kept and nothing that consensus can see, a start
over the storage it leaves finds the same state, and nothing in it panics. -/
namespace Parallax

/-- The same bounds, terms and entries. -/
structure RaftLog.SameLog (l l' : RaftLog) : Prop where
  firstIndex : l'.firstIndex = l.firstIndex
  lastIndex : l'.lastIndex = l.lastIndex
  term : ∀ i, l'.term i = l.term i
  slice : ∀ lo hi, lo ≤ l.lastIndex + 1 → l'.slice lo hi = l.slice lo hi

/-- The index and slice expressions on `unstable.entries` and the lookups in storage succeed. -/
structure RaftLog.InBounds (l : RaftLog) : Prop where
  /-- `u.entries[i-u.offset]` of `maybeTerm`. -/
  maybeTerm : ∀ i last, l.unstable.offset ≤ i → l.unstable.maybeLastIndex = some last → i ≤ last →
    (∀ s, l.unstable.snapshot = some s → i ≠ s.metadata.index) → i - l.unstable.offset < l.unstable.entries.length
  /-- `u.entries[i+1-u.offset:]` of `stableTo`. -/
  stableTo : ∀ i t, l.unstable.maybeTerm i = some t → l.unstable.offset ≤ i →
    i + 1 - l.unstable.offset ≤ l.unstable.entries.length
  /-- `l.unstable.entries[ulo-uoff:hi-uoff]` of `slice`; its callers stay within the log. -/
  slice : ∀ lo hi, lo < hi → l.firstIndex ≤ lo → hi ≤ l.lastIndex + 1 → l.unstable.offset < hi →
    max lo l.unstable.offset ≤ hi ∧ hi - l.unstable.offset ≤ l.unstable.entries.length
  term : ∀ i, ∃ t, l.term i = .ok t
  entries : ∀ lo hi, l.firstIndex ≤ lo → lo ≤ l.lastIndex + 1 → ∃ es, l.slice lo hi = .ok es

namespace RaftLog.Repr
variable {l l' : RaftLog} {xs : List Entry}

theorem term_below (h : l.Repr xs) {i : Nat} (hi : i < l.base.index) : l.term i = .ok 0 := by
  unfold RaftLog.term
  rw [h.firstIndex,if_pos (.inl (by omega))]

theorem slice_below (h : l.Repr xs) {lo hi : Nat} (hlo : lo ≤ l.base.index) :
    l.slice lo hi = if lo ≥ hi then .ok [] else .error .compacted := by
  unfold RaftLog.slice
  rw [h.firstIndex,if_pos (Nat.lt_succ_of_le hlo)]

theorem sameLog (h : l.Repr xs) (h' : l'.Repr xs) (hb : l'.base.index = l.base.index) : l.SameLog l' where
  firstIndex := by rw [h.firstIndex,h'.firstIndex,hb]
  lastIndex := by rw [h.lastIndex,h'.lastIndex]
  term i := by
    rcases Nat.lt_or_ge i l.base.index with hi | hi
    · rw [h.term_below hi,h'.term_below (by omega)]
    · rw [h.term_eq hi,h'.term_eq (by omega)]
  slice lo hi hend := by
    rw [h.lastIndex] at hend
    rcases Nat.lt_or_ge l.base.index lo with hlo | hlo
    · rw [h.slice_eq hlo hend,h'.slice_eq (by omega) hend]
    · rw [h.slice_below hlo,h'.slice_below (by omega)]

private theorem inBounds (h : l.Repr xs) : l.InBounds := by
  obtain ⟨hb,hlen,-⟩ := h.split
  have hlast := h.lastIndex
  -- With entries pending they end where the log ends; without, nothing is read at or above the offset.
  have hread : ∀ i last, l.unstable.offset ≤ i → l.unstable.maybeLastIndex = some last → i ≤ last →
      i - l.unstable.offset < l.unstable.entries.length := by
    intro i last hi hl hle
    unfold Unstable.maybeLastIndex at hl
    split at hl
    · rename_i hne
      have := Option.some.inj hl
      omega
    obtain ⟨s,hs,rfl⟩ := Option.map_eq_some_iff.mp hl
    have := h.above s hs
    omega
  refine ⟨fun i last hi hl hle _ => hread i last hi hl hle,fun i t ht hi => ?_,fun lo hi hlt hlo hhi hoff => ?_,
    fun i => ?_,fun lo hi hlo hend => ?_⟩
  · unfold Unstable.maybeTerm at ht
    rw [if_neg (by omega)] at ht
    split at ht
    · cases ht
    rename_i last hl
    split at ht
    · cases ht
    · have := hread i last hi hl (by omega)
      omega
  · rw [hlast] at hhi
    omega
  · rcases Nat.lt_or_ge i l.base.index with hi | hi
    · exact ⟨0,h.term_below hi⟩
    · exact ⟨_,h.term_eq hi⟩
  rw [h.firstIndex] at hlo
  rw [hlast] at hend
  exact ⟨_,h.slice_eq hlo hend⟩

end RaftLog.Repr

namespace Cluster
open Consensus Consensus.History
variable {S : Setup} {H : Hist} {s : State S.app} {n : Nat}

/-- What a start over `st` finds of a core: term, vote and log. -/
structure Recovered (cfg : Config) (st : Storage) (rand : Nat → Nat) (r : Raft) : Prop where
  failed : (Raft.newRaft cfg st rand).failed = false
  term : (Raft.newRaft cfg st rand).term = r.term
  vote : (Raft.newRaft cfg st rand).vote = r.vote
  log : r.raftLog.SameLog (Raft.newRaft cfg st rand).raftLog

theorem At.recovered {r : Raft} (h : At S H n r) {st : Storage} (hst : st.Repr (H.log n))
    (hsn : SnapOK S H r.term st.snapshot) (hb : st.offset = r.raftLog.base.index) (ht : Behind st.hardState r)
    (rand : Nat → Nat) : Recovered (S.cfg n) st rand r ∧
      (Raft.newRaft (S.cfg n) st rand).raftLog.committed = max st.hardState.commit st.offset := by
  obtain ⟨p,_,hpk,hraft⟩ := (h.disk hst hsn ht).start h.mem h.good rand
  have hbase : p.raft.raftLog.base.index = r.raftLog.base.index := by
    rw [← hb,RaftLog.base,hpk.clean.1]
    exact congrArg (·.metadata.index) hpk.snapshot
  have hrec := hpk.recover
  have hstore : p.raft.raftLog.storage = st := by rw [hraft,newRaft_raftLog,recoverLog_storage]
  rw [hstore] at hrec
  rw [← hraft]
  refine ⟨⟨by rw [← hraft]; exact hpk.core.ok.failed,?_,?_,?_⟩,hrec.symm⟩
  · rw [← hraft,← hpk.disk.1,ht.1]
  · rw [← hraft,← hpk.disk.2.1,ht.2.1]
  · rw [← hraft]
    exact h.ok.log.repr.sameLog hpk.core.ok.log.repr hbase

namespace Undrained
variable {d : Storage} {p : Peer S.app}

private theorem cycle (h : Undrained S H n d p) : ∃ rd st, p.raft.ready = .ok rd ∧
    Cluster.persist p.raft.raftLog.storage rd = .ok st ∧ st.Repr (H.log n) ∧ SnapOK S H p.raft.term st.snapshot ∧
    st.offset = p.raft.raftLog.base.index ∧ Behind st.hardState p.raft ∧
    max st.hardState.commit st.offset = p.raft.raftLog.committed ∧
    At S H n ({ p.raft with raftLog := { p.raft.raftLog with storage := st } }.advance rd) := by
  obtain ⟨rd,hrd,_⟩ := h.core.ok.log.exists_ready
  obtain ⟨st,hst,hrep,hsok,hsn,hhs⟩ := h.persist hrd
  have hmeta : st.snapshot.metadata = p.raft.raftLog.base := hsn ▸ p.raft.raftLog.metadata_getD
  exact ⟨rd,st,hrd,hst,hrep,hsok,congrArg (·.index) hmeta,h.persist_behind hrd hhs,h.persist_recover hrd hsn hhs,
    h.core.mem,h.core.good,h.advance_ok hrd hrep hmeta hsok⟩

end Undrained

/-- A core after an input, or (`none`) as the last drain left it. -/
def after (r : Raft) (i : Option Input) : Raft := i.elim r (Input.run r)

theorem Inv.undrained (h : Inv S s H) (hn : n ∈ S.peers) {p : Peer S.app} (hp : (s.host n).vol = some p)
    {i : Option Input} (hi : ∀ j, i = some j → s.Admits n j) :
    ∃ H', Undrained S H' n (s.host n).disk { p with raft := after p.raft i } := by
  have hpk := (h.hosts n hn).peer p hp
  cases i with
  | none => exact ⟨H,hpk.undrained (Frame.refl n H) hpk.core (i := none) (.quiet (.refl _))⟩
  | some j =>
    obtain ⟨H',hf,ha,_,heff,_⟩ := h.input hn hp (hi j rfl)
    exact ⟨H',hpk.undrained hf ha heff⟩

/-- A Ready cycle is invisible to consensus and complete, and what it stores recovers the core. If the batch need
not be synced, losing it costs the commit index only. -/
theorem ready_cycle (h : Reachable S s) (hn : n ∈ S.peers) {p : Peer S.app} (hp : (s.host n).vol = some p)
    {i : Option Input} (hi : ∀ j, i = some j → s.Admits n j) :
    let r := after p.raft i
    ∃ rd st, r.ready = .ok rd ∧ persist r.raftLog.storage rd = .ok st ∧
      let r' := { r with raftLog := { r.raftLog with storage := st } }.advance rd
      (r'.term = r.term ∧ r'.vote = r.vote ∧ r'.state = r.state ∧ r'.prs = r.prs ∧
        r'.raftLog.committed = r.raftLog.committed ∧ r.raftLog.SameLog r'.raftLog) ∧
      r'.raftLog.applied = r'.raftLog.committed ∧ r'.hasReady = false ∧
      (∀ rand, Recovered (S.cfg n) st rand r ∧
        (Raft.newRaft (S.cfg n) st rand).raftLog.committed = r.raftLog.committed) ∧
      (rd.mustSync = false → ∀ rand, Recovered (S.cfg n) r.raftLog.storage rand r) := by
  intro r
  obtain ⟨H₀,hI⟩ := h.inv
  obtain ⟨H,hun⟩ := hI.undrained hn hp hi
  have ha : At S H n r := hun.core
  have hlog := ha.ok.log
  obtain ⟨rd,st,hrd,hst,hrep,hsok,hoff,hbehind,hrec,ha'⟩ := hun.cycle
  refine ⟨rd,st,hrd,hst,?_⟩
  have hadv := hlog.advance_raftLog st hrd
  refine ⟨⟨rfl,rfl,rfl,rfl,by rw [hadv],?_⟩,by rw [hadv],hun.advance_hasReady hrd,fun rand => ?_,fun hsync rand => ?_⟩
  · refine hlog.repr.sameLog ha'.ok.log.repr ?_
    rw [hadv,← hoff]
    rfl
  · obtain ⟨hr,hc⟩ := ha.recovered hrep hsok hoff hbehind rand
    exact ⟨hr,hc.trans hrec⟩
  obtain ⟨hclean,hterm,hvote⟩ := (hlog.readyOf hrd).unsynced hsync
  refine (ha.recovered (hlog.repr.storage hclean) hlog.snap ?_ ⟨?_,?_,hun.mirror.2.2⟩ rand).1
  · rw [RaftLog.base,hclean.1]
    rfl
  · exact (hun.mirror.1.trans hun.prev.1.symm).trans hterm.symm
  · exact (hun.mirror.2.1.trans hun.prev.2.symm).trans hvote.symm

/-- A proposal to the leader of `settled`. -/
def proposal : Input := .step { type := .propose, sender := 1, entries := [{ data := [7] }] }

theorem proposal_admitted : ∀ j, some proposal = some j → settled.Admits 1 j := by
  rintro j ⟨⟩
  exact .inl rfl

theorem ready_cycle_settled : ∃ p, (settled.host 1).vol = some p ∧ ∃ rd st,
    (after p.raft (some proposal)).ready = .ok rd ∧
    persist (after p.raft (some proposal)).raftLog.storage rd = .ok st := by
  obtain ⟨p,hp,_⟩ := settled_leader
  obtain ⟨rd,st,hrd,hst,_⟩ := ready_cycle settled_reachable (by decide) hp proposal_admitted
  exact ⟨p,hp,rd,st,hrd,hst⟩

theorem findConflict_mem (l : RaftLog) {ents : List Entry} (h : l.findConflict ents ≠ 0) :
    ∃ e ∈ ents, e.index = l.findConflict ents := by
  induction ents with
  | nil => exact absurd rfl h
  | cons e es ih =>
    unfold RaftLog.findConflict at h ⊢
    split
    · rename_i hm
      rw [if_pos hm] at h
      obtain ⟨e',he',hidx⟩ := ih h
      exact ⟨e',List.mem_cons_of_mem _ he',hidx⟩
    · exact ⟨e,List.mem_cons_self ..,rfl⟩

/-- `ents[conflict-off:]` of `maybeAppend` is in range. -/
def CutInRange (l : RaftLog) (m : Message) : Prop :=
  l.findConflict m.entries ≠ 0 → m.logIndex < l.findConflict m.entries ∧
    l.findConflict m.entries - (m.logIndex + 1) ≤ m.entries.length

theorem Batch.cutInRange {t : Nat} {m : Message} (h : Batch H t m) (l : RaftLog) : CutInRange l m := by
  intro hne
  obtain ⟨e,he,hidx⟩ := findConflict_mem l hne
  obtain ⟨k,hk⟩ := List.mem_iff_getElem?.mp he
  have hlt := (List.getElem?_eq_some_iff.mp hk).1
  have := h.indexed k e hk
  omega

/-- No panic of the core is reachable, at a start, in an input or in its drain, and no index or slice expression
leaves its range. An input replaces the unstable part of the log at most once, so what it reads is the log before
or the log after it. -/
theorem no_panic (h : Reachable S s) (hn : n ∈ S.peers) :
    (∀ rand, (Raft.newRaft (S.cfg n) (s.host n).disk rand).failed = false ∧
      (Raft.newRaft (S.cfg n) (s.host n).disk rand).raftLog.InBounds) ∧
    ∀ p, (s.host n).vol = some p → ∀ i : Option Input, (∀ j, i = some j → s.Admits n j) →
      p.raft.raftLog.InBounds ∧
      (∀ m, i = some (.step m) → m.type = .append → CutInRange p.raft.raftLog m) ∧
      let r := after p.raft i
      r.failed = false ∧ r.raftLog.InBounds ∧
      ∃ rd st, r.ready = .ok rd ∧ persist r.raftLog.storage rd = .ok st ∧
        let r' := { r with raftLog := { r.raftLog with storage := st } }.advance rd
        r'.failed = false ∧ r'.raftLog.InBounds := by
  obtain ⟨H,hI⟩ := h.inv
  refine ⟨fun rand => ?_,fun p hp i hi => ?_⟩
  · obtain ⟨q,_,hqk,hraft⟩ := (hI.hosts n hn).disk.start hn hI.good rand
    rw [← hraft]
    exact ⟨hqk.core.ok.failed,hqk.core.ok.log.repr.inBounds⟩
  obtain ⟨H',hun⟩ := hI.undrained hn hp hi
  obtain ⟨rd,st,hrd,hst,_,_,_,_,_,ha'⟩ := hun.cycle
  refine ⟨((hI.hosts n hn).peer p hp).core.ok.log.repr.inBounds,fun m hm ht => ?_,hun.core.ok.failed,
    hun.core.ok.log.repr.inBounds,rd,st,hrd,hst,ha'.ok.failed,ha'.ok.log.repr.inBounds⟩
  have hmem := (hi _ hm).mem rfl (by simp [ht]) (by simp [ht])
  exact ((hI.net m hmem.1).batch hI.good ht).2.1.cutInRange _

theorem no_panic_settled : ∃ p, (settled.host 1).vol = some p ∧ (after p.raft (some proposal)).failed = false := by
  obtain ⟨p,hp,_⟩ := settled_leader
  exact ⟨p,hp,((no_panic settled_reachable (n := 1) (by decide)).2 p hp (some proposal) proposal_admitted).2.2.1⟩

end Cluster
end Parallax
