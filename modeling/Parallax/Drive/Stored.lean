import Parallax.Cluster.Model
import Parallax.Drive.Model

/-! The directory of a node against the abstract disk of the cluster model: synced records are what the disk
holds, buffered ones what the node has written since. Snapshots do not occur. -/
namespace Parallax.Drive
open Disk Scan
open Cluster (Rec replay replayRec records)

def record : Rec → Record
  | .entry e => .entry e
  | .hardState st => .hardState st

/-- The abstract disk that `recs` rebuild. -/
structure Rebuilds (recs : List Record) (d : Parallax.Storage) : Prop where
  entries : logOf 0 recs = some d.entries
  hardState : d.hardState = hardOf recs
  snapshot : d.snapshot = {}

/-- `stor` has flushed `done` and buffered `pend`. -/
structure Buffered (stor : Disk.Storage) (done pend : List Record) : Prop where
  sound : stor.Sound false done pend stor.mirror.entries
  snapshot : stor.mirror.snapshot = {}

/-- A storage in use over the disk `d`, with `buf` unsynced. -/
def Stored (stor : Disk.Storage) (d : Parallax.Storage) (buf : List Rec) : Prop :=
  ∃ done, Buffered stor done (buf.map record) ∧ Rebuilds done d

/-- A directory that stands for the disk `d`. -/
def Left (dir : Dir) (d : Parallax.Storage) : Prop :=
  (dir = {} ∧ d = {}) ∨ ∃ recs, Intact dir {} false recs d.entries ∧ Rebuilds recs d

private theorem replayRec_eq {d : Parallax.Storage} (hd : d.snapshot = {}) {rec : Rec} {es : List Entry}
    (h : logStep 0 d.entries (record rec) = some es) :
    replayRec d rec = { d with entries := es, hardState := hardStep d.hardState (record rec) } := by
  cases rec with
  | hardState st =>
    obtain rfl := Option.some.inj h
    rfl
  | entry e =>
    have hoff : d.offset = 0 := by rw [Parallax.Storage.offset,hd]
    simp only [record,logStep] at h
    simp only [replayRec,Parallax.Storage.appendEntries,List.head?_cons,List.getLast?_singleton,hoff]
    split at h
    · rename_i h0
      obtain rfl := Option.some.inj h
      rw [if_pos h0]
      rfl
    rename_i h0
    split at h
    · cases h
    rename_i hpos
    obtain rfl := Option.some.inj h
    rw [if_neg h0,if_neg h0]
    simp only [Parallax.Storage.splice,hoff]
    rw [if_neg hpos]
    rfl

private theorem replay_eq (recs : List Rec) : ∀ {d : Parallax.Storage} {es : List Entry}, d.snapshot = {} →
    feed (logStep 0) d.entries (recs.map record) = some es →
    replay d recs = { d with entries := es, hardState := (recs.map record).foldl hardStep d.hardState } := by
  induction recs with
  | nil =>
    intro d es _ h
    obtain rfl := Option.some.inj h
    rfl
  | cons rec recs ih =>
    intro d es hd h
    rw [List.map_cons,feed_cons] at h
    obtain ⟨es₁,h₁,h₂⟩ := Option.bind_eq_some_iff.mp h
    have hstep : replay d (rec :: recs) = replay (replayRec d rec) recs := rfl
    rw [hstep,replayRec_eq hd h₁]
    exact ih hd h₂

theorem Rebuilds.replay {done : List Record} {d : Parallax.Storage} (h : Rebuilds done d) {recs : List Rec}
    {es : List Entry} (hes : logOf 0 (done ++ recs.map record) = some es) :
    Rebuilds (done ++ recs.map record) (replay d recs) ∧ (replay d recs).entries = es := by
  have hfeed := hes
  rw [logOf_append,h.entries,Option.bind_some] at hfeed
  rw [replay_eq recs h.snapshot hfeed]
  exact ⟨⟨hes,by rw [hardOf_append,h.hardState],h.snapshot⟩,rfl⟩

namespace Buffered
variable {stor stor' : Disk.Storage} {done pend : List Record}

theorem offset (h : Buffered stor done pend) : stor.offset = 0 := by rw [Disk.Storage.offset,h.snapshot]

theorem log (h : Buffered stor done pend) : logOf 0 (done ++ pend) = some stor.mirror.entries := by
  have := h.sound.log
  rwa [h.offset] at this

theorem rebuilds (h : Buffered stor done []) : Rebuilds done stor.mirror.toStorage := by
  have hlog := h.log
  have hhard := h.sound.hard
  rw [List.append_nil] at hlog hhard
  exact ⟨hlog,hhard,h.snapshot⟩

private theorem appendEntries (h : Buffered stor done pend) {batch : List Entry} (hb : (Call.appendEntries batch).Fits)
    (hpos : ∀ e ∈ batch, 0 < e.index) (hs : stor.appendEntries batch = .ok stor') :
    Buffered stor' done (pend ++ batch.map .entry) ∧ stor'.dir = stor.dir ∧ stor'.ops = stor.ops := by
  rcases h.sound.toBacked.appendEntries hb hs with ⟨ha,rfl⟩ | ⟨new,ha,hsnap,hops,hB⟩
  · -- Nothing is below the empty snapshot, so the batch is empty.
    cases batch with
    | nil => exact ⟨by simpa using h,rfl,rfl⟩
    | cons first rest =>
      have hlast := hpos _ (List.getLast_mem (List.cons_ne_nil first rest))
      have hfirst := hpos first (by simp)
      simp only [above,h.offset,List.head?_cons,List.getLast?_eq_some_getLast (List.cons_ne_nil first rest)] at ha
      rw [if_neg (by omega),if_neg (by omega)] at ha
      cases ha
  obtain rfl : new = batch := by
    cases batch with
    | nil => cases ha
    | cons first rest =>
      have hlast := hpos _ (List.getLast_mem (List.cons_ne_nil first rest))
      have hfirst := hpos first (by simp)
      simp only [above,h.offset,List.head?_cons,List.getLast?_eq_some_getLast (List.cons_ne_nil first rest)] at ha
      rw [if_neg (by omega),if_neg (by omega)] at ha
      exact (Option.some.inj ha).symm
  refine ⟨⟨⟨hB,?_⟩,hsnap.trans h.snapshot⟩,?_,hops⟩
  · rw [Disk.Storage.offset,hsnap,← List.append_assoc]
    exact h.sound.below.append (markedBelow_entries _ new)
  rw [Disk.Storage.appendEntries_eq,ha] at hs
  simp only [Disk.Storage.spliceEntries] at hs
  split at hs
  · cases hs
  split at hs
  · cases hs
  · obtain rfl := Except.ok.inj hs
    rfl

private theorem setHardState (h : Buffered stor done pend) {st : HardState} (hst : (Record.hardState st).Fits) :
    Buffered (stor.setHardState st) done (pend ++ [.hardState st]) := by
  refine ⟨⟨h.sound.toBacked.setHardState hst,?_⟩,h.snapshot⟩
  rw [← List.append_assoc]
  exact h.sound.below.append fun md hmd => by simp at hmd

private theorem sync (h : Buffered stor done pend) (maxSegmentSize : Nat) :
    Buffered (stor.sync maxSegmentSize) (done ++ pend) [] := by
  have hm : (stor.sync maxSegmentSize).mirror = stor.mirror := Disk.Storage.syncBuffered_mirror ..
  refine ⟨⟨?_,?_⟩,hm ▸ h.snapshot⟩
  · rw [hm]
    exact h.sound.toBacked.sync maxSegmentSize
  · rw [Disk.Storage.offset,hm,List.append_nil]
    exact h.sound.below

theorem cut {buf : List Rec} (h : Buffered stor done (buf.map record)) {d : Parallax.Storage} (hd : Rebuilds done d)
    {maxSegmentSize : Nat} {dir : Dir} (hc : Cut (stor.flushOps maxSegmentSize) stor.dir dir) :
    ∃ j, Left dir (replay d (buf.take j)) := by
  obtain ⟨hsnaps,j,hj⟩ := h.sound.toKept.cut hc
  obtain ⟨es₀,h₀⟩ := Intact.of_front hj (h.sound.newest.snaps_eq hsnaps) h.sound.number h.sound.below h.sound.log
  rw [← List.map_take,h.snapshot] at h₀
  obtain ⟨hr,hes⟩ := hd.replay h₀.log
  exact ⟨j,.inr ⟨_,hes ▸ h₀,hr⟩⟩

private theorem left (h : Buffered stor done pend) {d : Parallax.Storage} (hd : Rebuilds done d) : Left stor.dir d := by
  obtain ⟨es₀,h₀⟩ := h.sound.intact
  rw [h.snapshot] at h₀
  obtain rfl : es₀ = d.entries := Option.some.inj (h₀.log.symm.trans hd.entries)
  exact .inr ⟨done,h₀,hd⟩

end Buffered

theorem Stored.left {stor : Disk.Storage} {d : Parallax.Storage} {buf : List Rec} (h : Stored stor d buf) :
    Left stor.dir d := by
  obtain ⟨done,hb,hd⟩ := h
  exact hb.left hd

/-- `Open`, and a crash inside it. -/
theorem Left.opened {dir : Dir} {d : Parallax.Storage} (h : Left dir d) (maxSegmentSize : Nat) :
    Stored (openDir maxSegmentSize dir) d [] ∧ (openDir maxSegmentSize dir).mirror.toStorage = d ∧
      ∀ dir', Cut (openDir maxSegmentSize dir).ops dir dir' → Left dir' d := by
  rcases h with ⟨rfl,rfl⟩ | ⟨recs,h,hd⟩
  · refine ⟨⟨[],⟨sound_first maxSegmentSize,rfl⟩,rfl,rfl,rfl⟩,rfl,fun dir' hc => ?_⟩
    rw [openDir_empty] at hc
    cases hc with
    | now => exact .inl ⟨rfl,rfl⟩
    | next hc =>
      cases hc with
      | now => exact .inr ⟨[],intact_first,rfl,rfl,rfl⟩
  obtain ⟨hB,hm,hcut⟩ := h.openDir_marked (by simp) maxSegmentSize
  refine ⟨⟨recs,⟨⟨?_,?_⟩,by rw [hm]⟩,hd⟩,?_,fun dir' hc => .inr ⟨recs,⟨hcut dir' hc,h.below⟩,hd⟩⟩
  · rw [hm]
    exact hB
  · rw [Disk.Storage.offset,hm,List.map_nil,List.append_nil]
    exact h.below
  · rw [hm,← hd.hardState,← hd.snapshot]

/-- The records of a batch are within the bounds of the log format. -/
def BatchFits (rd : Ready) : Prop := (∀ e ∈ rd.entries, EntryFits e) ∧ ∀ st ∈ rd.hardState, (Record.hardState st).Fits

instance (rd : Ready) : Decidable (BatchFits rd) := inferInstanceAs (Decidable (_ ∧ _))

section batch
variable {stor stor₁ : Disk.Storage} {d st : Parallax.Storage} {buf : List Rec} {rd : Ready} {maxSegmentSize : Nat}

theorem persist_mirror (hsn : rd.snapshot = none) (hp : Cluster.persist stor.mirror.toStorage rd = .ok st) :
    ∃ stor₁, stor.appendEntries rd.entries = .ok stor₁ ∧
      (rd.hardState.elim stor₁ stor₁.setHardState).mirror.toStorage = st := by
  have hcall := stor.call_mirror 0 (.appendEntries rd.entries)
  simp only [Disk.Storage.call,Parallax.Storage.call] at hcall
  simp only [Cluster.persist,hsn,Option.elim_none] at hp
  rw [← hcall] at hp
  cases h : stor.appendEntries rd.entries with
  | error err =>
    rw [h] at hp
    cases hp
  | ok stor₁ =>
    rw [h] at hp
    refine ⟨stor₁,rfl,?_⟩
    rw [← Except.ok.inj hp]
    cases rd.hardState <;> rfl

private theorem persist_eq (hsn : rd.snapshot = none) (h : stor.appendEntries rd.entries = .ok stor₁) :
    Server.persist maxSegmentSize stor rd = .ok (if rd.mustSync then
      (rd.hardState.elim stor₁ stor₁.setHardState).sync maxSegmentSize
        else rd.hardState.elim stor₁ stor₁.setHardState) := by
  have hent : (if rd.entries.length > 0 then stor.appendEntries rd.entries else .ok stor) = .ok stor₁ := by
    split
    · exact h
    rename_i h0
    have hnil : rd.entries = [] := List.length_eq_zero_iff.mp (by omega)
    rw [hnil] at h
    exact h
  simp only [Server.persist,hsn,hent]

theorem Buffered.batch {done : List Record} (h : Buffered stor done (buf.map record)) (hfits : BatchFits rd)
    (hcont : Contiguous rd.entries) (hpos : ∀ e ∈ rd.entries, 0 < e.index)
    (hs : stor.appendEntries rd.entries = .ok stor₁) :
    Buffered (rd.hardState.elim stor₁ stor₁.setHardState) done ((buf ++ records rd).map record) ∧
      (rd.hardState.elim stor₁ stor₁.setHardState).dir = stor.dir ∧
      (rd.hardState.elim stor₁ stor₁.setHardState).ops = stor.ops := by
  obtain ⟨h₁,hdir,hops⟩ := h.appendEntries ⟨hcont,hfits.1⟩ hpos hs
  have hmap : (rd.entries.map Rec.entry).map record = rd.entries.map .entry := by
    rw [List.map_map]
    rfl
  rw [records,List.map_append,List.map_append,hmap,← List.append_assoc,← hdir,← hops]
  cases hhs : rd.hardState with
  | none => exact ⟨by simpa using h₁,rfl,rfl⟩
  | some hs => exact ⟨h₁.setHardState (hfits.2 hs hhs),rfl,rfl⟩

theorem Stored.persist (h : Stored stor d buf) (hsn : rd.snapshot = none) (hfits : BatchFits rd)
    (hcont : Contiguous rd.entries) (hpos : ∀ e ∈ rd.entries, 0 < e.index)
    (hp : Cluster.persist stor.mirror.toStorage rd = .ok st) (maxSegmentSize : Nat) :
    ∃ stor', Server.persist maxSegmentSize stor rd = .ok stor' ∧ stor'.mirror.toStorage = st ∧
      Stored stor' (if rd.mustSync then st else d) (if rd.mustSync then [] else buf ++ records rd) ∧
      ∀ dir, Cut (stor'.ops.drop stor.ops.length) stor.dir dir →
        ∃ j, Left dir (replay d ((buf ++ records rd).take j)) := by
  obtain ⟨done,hb,hd⟩ := h
  obtain ⟨stor₁,h₁,hst⟩ := persist_mirror hsn hp
  obtain ⟨hb₂,hdir,hops⟩ := hb.batch hfits hcont hpos h₁
  refine ⟨_,persist_eq hsn h₁,?_⟩
  generalize rd.hardState.elim stor₁ stor₁.setHardState = stor₂ at hst hb₂ hdir hops ⊢
  by_cases hm : rd.mustSync = true
  · simp only [hm,if_true]
    have hb₃ := hb₂.sync maxSegmentSize
    have hmir : (stor₂.sync maxSegmentSize).mirror.toStorage = st := by
      rw [Disk.Storage.sync,Disk.Storage.syncBuffered_mirror,hst]
    refine ⟨hmir,⟨_,hb₃,hmir ▸ hb₃.rebuilds⟩,fun dir hc => ?_⟩
    rw [Disk.Storage.sync,Disk.Storage.syncBuffered_ops,hops,List.drop_left,← hdir] at hc
    exact hb₂.cut hd hc
  simp only [hm,Bool.false_eq_true,if_false]
  refine ⟨hst,⟨done,hb₂,hd⟩,fun dir hc => ?_⟩
  rw [hops,List.drop_length] at hc
  cases hc with
  | now => exact ⟨0,hb.left hd⟩

end batch
end Parallax.Drive
