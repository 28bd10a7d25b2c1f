import Parallax.Disk.Install

/-! Which snapshots `Open` reads back: whatever else happened in the directory, those whose file is within the
payload bound. -/
namespace Parallax.Disk
open BigEndian

/-- No snapshot file is among the file operations. -/
def Plain (ops : List FileOp) : Prop := ∀ n bs, .install n bs ∉ ops

theorem Plain.perform_snaps {op : FileOp} (h : ∀ n bs, op ≠ .install n bs) (d : Dir) : (d.perform op).snaps = d.snaps := by
  cases op with
  | create seq =>
    simp only [Dir.perform]
    split <;> rfl
  | append seq bs => rfl
  | truncate seq size => rfl
  | remove seq => rfl
  | install n bs => exact absurd rfl (h n bs)

theorem Plain.foldl_snaps {ops : List FileOp} (h : Plain ops) (d : Dir) : (ops.foldl Dir.perform d).snaps = d.snaps := by
  induction ops generalizing d with
  | nil => rfl
  | cons op ops ih =>
    rw [List.foldl_cons,ih fun n bs hmem => h n bs (List.mem_cons_of_mem _ hmem)]
    exact perform_snaps (fun n bs heq => h n bs (heq ▸ List.mem_cons_self)) d

theorem Plain.cut_snaps {ops : List FileOp} (h : Plain ops) {d d' : Dir} (hd : Cut ops d d') : d'.snaps = d.snaps := by
  induction hd with
  | now => rfl
  | torn seq bs k ops d => rfl
  | next hd ih =>
    rw [ih fun n bs hmem => h n bs (List.mem_cons_of_mem _ hmem)]
    exact perform_snaps (fun n bs heq => h n bs (heq ▸ List.mem_cons_self)) _

/-- From `s` to `s'` the snapshot stays, in memory and in the files. -/
structure Storage.Steady (s s' : Storage) : Prop where
  snapshot : s'.mirror.snapshot = s.mirror.snapshot
  ops : ∃ new, s'.ops = s.ops ++ new ∧ Plain new ∧ s'.dir = new.foldl Dir.perform s.dir

namespace Storage.Steady
variable {s s' s'' : Storage}

private theorem of_same (hm : s'.mirror.snapshot = s.mirror.snapshot) (hd : s'.dir = s.dir) (ho : s'.ops = s.ops) :
    s.Steady s' := ⟨hm,[],by simp [ho],by simp [Plain],hd⟩

private theorem trans (h : s.Steady s') (h' : s'.Steady s'') : s.Steady s'' := by
  obtain ⟨new,ho,hp,hd⟩ := h.ops
  obtain ⟨new',ho',hp',hd'⟩ := h'.ops
  refine ⟨h'.snapshot.trans h.snapshot,new ++ new',by rw [ho',ho,List.append_assoc],fun n bs hmem => ?_,
    by rw [hd',hd,List.foldl_append]⟩
  exact (List.mem_append.mp hmem).elim (hp n bs) (hp' n bs)

private theorem snaps (h : s.Steady s') : s'.dir.snaps = s.dir.snaps := by
  obtain ⟨new,-,hp,hd⟩ := h.ops
  rw [hd,hp.foldl_snaps]

private theorem cut_snaps (h : s.Steady s') {d : Dir} (hd : Cut (s'.ops.drop s.ops.length) s.dir d) :
    d.snaps = s.dir.snaps := by
  obtain ⟨new,ho,hp,-⟩ := h.ops
  rw [ho,List.drop_left] at hd
  exact hp.cut_snaps hd

private theorem perform {op : FileOp} (h : ∀ n bs, op ≠ .install n bs) (s : Storage) : s.Steady (s.perform op) :=
  ⟨rfl,[op],rfl,fun n bs hmem => h n bs (List.mem_singleton.mp hmem).symm,rfl⟩

private theorem syncBuffered (maxSegmentSize : Nat) (s : Storage) : s.Steady (s.syncBuffered maxSegmentSize) := by
  refine ⟨by rw [syncBuffered_mirror],s.flushOps maxSegmentSize,syncBuffered_ops ..,?_,syncBuffered_dir ..⟩
  unfold Plain flushOps
  split
  · simp
  · split <;> simp

private theorem writeMarker (maxSegmentSize : Nat) (s : Storage) : s.Steady (s.writeMarker maxSegmentSize) := by
  have hbuf : s.Steady { s with buf := appendFrame s.buf (encodeTruncateSuffix s.mirror.snapshot.metadata) } :=
    of_same rfl rfl rfl
  exact (hbuf.trans (syncBuffered maxSegmentSize _)).trans (of_same rfl rfl rfl)

end Storage.Steady

theorem Mirror.applyRecord_snapshot {m m' : Mirror} {payload : Bytes} (h : m.applyRecord payload = some m') :
    m'.snapshot = m.snapshot := by
  have hentry : ∀ e, m.applyEntryRecord e = some m' → m'.snapshot = m.snapshot := by
    intro e he
    unfold applyEntryRecord at he
    simp only at he
    split_ifs at he <;> obtain rfl := Option.some.inj he <;> rfl
  have htrunc : ∀ i, (m.truncateSuffix i).snapshot = m.snapshot := by
    intro i
    unfold truncateSuffix
    simp only
    split_ifs <;> rfl
  unfold applyRecord at h
  split at h
  · cases h
  split_ifs at h
  · obtain ⟨e,-,he⟩ := Option.bind_eq_some_iff.mp h
    exact hentry e he
  · obtain ⟨st,-,rfl⟩ := Option.map_eq_some_iff.mp h
    rfl
  obtain ⟨md,-,rfl⟩ := Option.map_eq_some_iff.mp h
  simp only
  split
  · exact htrunc md.index
  · exact htrunc md.index

private theorem scan_snapshot (data : Bytes) : ∀ (fuel off : Nat) (m : Mirror),
    (Scan.scan readFrame Mirror.applyRecord data fuel off m).1.snapshot = m.snapshot := by
  intro fuel
  induction fuel with
  | zero => exact fun _ _ => rfl
  | succ fuel ih =>
    intro off m
    unfold Scan.scan
    split
    · split
      · rfl
      split
      · rfl
      · rename_i h
        rw [ih,Mirror.applyRecord_snapshot h]
    · rfl

namespace Storage.Steady

private theorem replaySegment (s : Storage) (seq : Nat) : s.Steady (s.replaySegment seq).1 := by
  have hscan := scan_snapshot (readFile s.dir.segs seq) ((readFile s.dir.segs seq).length + 1) 0 s.mirror
  unfold Storage.replaySegment
  simp only
  split
  · rename_i m hm
    rw [hm] at hscan
    exact of_same hscan rfl rfl
  rename_i m off hm
  rw [hm] at hscan
  have hreplayed : s.Steady { s with mirror := m } := of_same hscan rfl rfl
  exact hreplayed.trans (perform (by simp) _)

private theorem removeSegments (seqs : List Nat) : ∀ s : Storage, s.Steady (s.removeSegments seqs) := by
  induction seqs with
  | nil => exact fun s => of_same rfl rfl rfl
  | cons seq seqs ih => exact fun s => (perform (by simp) s).trans (ih _)

private theorem replaySegments (names : List Nat) : ∀ s : Storage, s.Steady (s.replaySegments names).1 := by
  induction names with
  | nil => exact fun s => of_same rfl rfl rfl
  | cons seq rest ih =>
    intro s
    have hseg := replaySegment s seq
    unfold Storage.replaySegments
    split
    · rename_i s' hs'
      rw [hs'] at hseg
      exact hseg.trans (removeSegments rest s')
    rename_i s' hs'
    rw [hs'] at hseg
    exact hseg.trans (ih s')

private theorem openActiveSegment (s : Storage) (segs : List Nat) : s.Steady (s.openActiveSegment segs) := by
  unfold Storage.openActiveSegment
  split
  · have hcreate : s.Steady (s.perform (.create 1)) := perform (by simp) s
    exact hcreate.trans (of_same rfl rfl rfl)
  · exact of_same rfl rfl rfl

theorem openDir (maxSegmentSize : Nat) (d : Dir) :
    Steady { dir := d, mirror := loadLatestSnapshot d {} } (openDir maxSegmentSize d) := by
  have hload : Steady { dir := d, mirror := loadLatestSnapshot d {} } (loadDir d) :=
    (replaySegments (listing d.segs) _).trans (openActiveSegment _ _)
  unfold Disk.openDir
  simp only
  split
  · have hempty : (loadDir d).Steady { loadDir d with mirror := { (loadDir d).mirror with entries := [] } } :=
      of_same rfl rfl rfl
    exact (hload.trans hempty).trans (writeMarker maxSegmentSize _)
  · exact hload

end Storage.Steady

/-- The numbers of a snapshot are 64-bit words. -/
def Call.Words : Call → Prop
  | .applySnapshot snap => U64 snap.metadata.index ∧ U64 snap.metadata.term
  | _ => True

/-- Runs over a directory with any files, of any calls. -/
abbrev Served (maxSegmentSize : Nat) : Status → Prop := Runs maxSegmentSize Dir.Named Call.Words

theorem Storage.applySnapshot_steady {maxSegmentSize : Nat} {s s' : Storage} {snap : Snapshot}
    (h : s.applySnapshot maxSegmentSize snap = .ok s') : s.offset < snap.metadata.index ∧
      ∃ entries, (s.installed snap (decide (s.Conflicts snap)) entries).Steady s' := by
  have hlt : s.offset < snap.metadata.index := by
    by_contra hle
    simp [Storage.applySnapshot,Nat.not_lt.mp hle] at h
  refine ⟨hlt,?_⟩
  by_cases hconf : s.Conflicts snap
  · rw [applySnapshot_conflict hconf] at h
    obtain rfl := Except.ok.inj h
    rw [decide_eq_true hconf]
    exact ⟨[],Steady.writeMarker ..⟩
  rw [applySnapshot_clean hlt hconf] at h
  obtain rfl := Except.ok.inj h
  rw [decide_eq_false hconf]
  exact ⟨_,Steady.of_same rfl rfl rfl⟩

theorem Storage.call_steady {maxSegmentSize : Nat} {s s' : Storage} {c : Call} (h : s.call maxSegmentSize c = .ok s')
    (hc : ∀ snap, c ≠ .applySnapshot snap) : s.Steady s' := by
  cases c with
  | appendEntries entries =>
    rw [Storage.call,appendEntries_eq] at h
    split at h
    · obtain rfl := Except.ok.inj h
      exact Steady.of_same rfl rfl rfl
    unfold spliceEntries at h
    split at h
    · cases h
    simp only at h
    split at h
    · cases h
    · obtain rfl := Except.ok.inj h
      exact Steady.of_same rfl rfl rfl
  | setHardState st =>
    obtain rfl := Except.ok.inj h
    exact Steady.of_same rfl rfl rfl
  | applySnapshot snap => exact absurd rfl (hc snap)
  | sync =>
    obtain rfl := Except.ok.inj h
    exact Steady.syncBuffered ..

theorem Served.named {maxSegmentSize : Nat} {x : Status} (h : Served maxSegmentSize x) :
    match x with
    | .up s => s.dir.Named ∧ s.dir.Topped s.offset
    | .down d => d.Named := by
  induction h with
  | found hd => exact hd
  | @opened d _ ih =>
    have hst := Storage.Steady.openDir maxSegmentSize d
    refine ⟨ih.snaps_eq hst.snaps,Dir.Topped.snaps_eq ?_ hst.snaps⟩
    rw [Storage.offset,hst.snapshot]
    obtain ⟨snap,flag,hnew,-⟩ := Dir.Named.newest ih
    rw [hnew.load]
    exact hnew.topped
  | @called s s' c _ hc hs ih =>
    by_cases hsnap : ∃ snap, c = .applySnapshot snap
    · obtain ⟨snap,rfl⟩ := hsnap
      obtain ⟨hlt,entries,hst⟩ := Storage.applySnapshot_steady hs
      refine ⟨(ih.1.install hc _).snaps_eq hst.snaps,Dir.Topped.snaps_eq ?_ hst.snaps⟩
      rw [Storage.offset,hst.snapshot]
      exact ih.2.install hlt _
    have hst := Storage.call_steady hs fun snap heq => hsnap ⟨snap,heq⟩
    refine ⟨ih.1.snaps_eq hst.snaps,Dir.Topped.snaps_eq ?_ hst.snaps⟩
    rw [Storage.offset,hst.snapshot]
    exact ih.2
  | @crashed s s' c d _ hc hs hd ih =>
    by_cases hsnap : ∃ snap, c = .applySnapshot snap
    · obtain ⟨snap,rfl⟩ := hsnap
      obtain ⟨hlt,entries,hst⟩ := Storage.applySnapshot_steady hs
      obtain ⟨new,ho,hp,-⟩ := hst.ops
      rw [ho] at hd
      simp only [Storage.installed,Storage.writeSnapshotFile,Storage.perform,List.append_assoc,List.drop_left] at hd
      cases hd with
      | now => exact ih.1
      | next hd => exact (ih.1.install hc _).snaps_eq (hp.cut_snaps hd)
    · have hst := Storage.call_steady hs fun snap heq => hsnap ⟨snap,heq⟩
      exact ih.1.snaps_eq (hst.cut_snaps hd)
  | @crashedOpening d d' _ hd ih =>
    exact Dir.Named.snaps_eq ih ((Storage.Steady.openDir maxSegmentSize d).cut_snaps hd)

/-- The payload before there were flags. -/
def legacyPayload (snap : Snapshot) : Bytes :=
  put 8 snap.metadata.index ++ put 8 snap.metadata.term ++ put 4 snap.data.length ++ snap.data

private theorem length_legacyPayload (snap : Snapshot) : (legacyPayload snap).length = 20 + snap.data.length := by
  simp [legacyPayload]
  omega

private theorem parseSnapPayload_legacyPayload {snap : Snapshot} (hi : U64 snap.metadata.index) (ht : U64 snap.metadata.term)
    (hd : snap.data.length < 2 ^ 32) : parseSnapPayload (legacyPayload snap) = some (snap,false) := by
  have hp : legacyPayload snap = put 8 snap.metadata.index ++ (put 8 snap.metadata.term ++
      (put 4 snap.data.length ++ snap.data)) := by
    simp [legacyPayload]
  have h8 : (legacyPayload snap).drop 8 = put 8 snap.metadata.term ++ (put 4 snap.data.length ++ snap.data) := by
    rw [hp,List.drop_left' (length_put _ _)]
  have h16 : (legacyPayload snap).drop 16 = put 4 snap.data.length ++ snap.data := by
    rw [show 16 = 8 + 8 by rfl,← List.drop_drop,h8,List.drop_left' (length_put _ _)]
  have h20 : (legacyPayload snap).drop 20 = snap.data := by
    rw [show 20 = 16 + 4 by rfl,← List.drop_drop,h16,List.drop_left' (length_put _ _)]
  unfold parseSnapPayload
  rw [length_legacyPayload,if_neg (by omega)]
  simp only [h16,h20,h8,List.take_left' (length_put _ _),get_put_u32 hd]
  rw [if_neg (by omega),if_neg (by omega),hp,List.take_left' (length_put _ _),List.take_length,get_put_u64 hi,
    get_put_u64 ht]

private theorem readSnapshotFile_legacy_iff {snap : Snapshot} (hi : U64 snap.metadata.index) (ht : U64 snap.metadata.term) :
    readSnapshotFile (appendFrame [] (legacyPayload snap)) = some (snap,false) ↔
      20 + snap.data.length ≤ sanityMaxPayload := by
  constructor
  · intro h
    rw [readSnapshotFile,appendFrame,List.nil_append,Option.bind_eq_some_iff] at h
    obtain ⟨⟨q,n⟩,hq,hparse⟩ := h
    obtain ⟨rfl,hbound⟩ := readFrame_some hq
    obtain ⟨-,-,hdata⟩ := parseSnapPayload_some hparse
    rw [List.length_take] at hdata
    omega
  intro hfits
  have hf : Fits (legacyPayload snap) := by
    unfold Fits
    rw [length_legacyPayload]
    omega
  have hread := readFrame_whole hf [] []
  simp only [List.nil_append,List.append_nil,List.length_nil] at hread
  simp only [readSnapshotFile,appendFrame,List.nil_append,hread,Option.bind_some]
  exact parseSnapPayload_legacyPayload hi ht (by unfold sanityMaxPayload at hfits; omega)

/-- In every run, an accepted snapshot is found by the next `Open`, with its flag, exactly if its
file is within the payload bound; and so is a legacy file, with the flag clear. -/
theorem applySnapshot_reads_back_iff {maxSegmentSize : Nat} {s s' : Storage} (hs : Served maxSegmentSize (.up s))
    {snap : Snapshot} (hnumber : U64 snap.metadata.index ∧ U64 snap.metadata.term)
    (happ : s.applySnapshot maxSegmentSize snap = .ok s') :
    ((loadLatestSnapshot s'.dir {} = { snapshot := snap, snapshotTruncationPending := decide (s.Conflicts snap) } ∧
      (openDir maxSegmentSize s'.dir).mirror.snapshot = snap) ↔ 21 + snap.data.length ≤ sanityMaxPayload) ∧
    ∀ old : Snapshot, U64 old.metadata.index → U64 old.metadata.term →
      (readSnapshotFile (appendFrame [] (legacyPayload old)) = some (old,false) ↔
        20 + old.data.length ≤ sanityMaxPayload) := by
  refine ⟨?_,fun old hi ht => readSnapshotFile_legacy_iff hi ht⟩
  obtain ⟨hnamed,htop⟩ := hs.named
  obtain ⟨hlt,entries,hst⟩ := Storage.applySnapshot_steady happ
  have hsnaps : loadLatestSnapshot s'.dir {} = loadLatestSnapshot (s.dir.perform
      (.install snap.metadata.index (appendFrame [] (snapPayload snap (decide (s.Conflicts snap)))))) {} := by
    have h : s'.dir.snaps = _ := hst.snaps
    simp only [loadLatestSnapshot,h]
    rfl
  rw [hsnaps,← hnamed.load_install_iff htop hlt hnumber (decide (s.Conflicts snap))]
  refine ⟨And.left,fun hload => ⟨hload,?_⟩⟩
  rw [(Storage.Steady.openDir maxSegmentSize s'.dir).snapshot,hsnaps,hload]

theorem applySnapshot_reads_back_small : let snap : Snapshot := { metadata := { index := 2, term := 7 }, data := [1,2,3] }
    ∃ s', threeSynced.applySnapshot 0 snap = .ok s' ∧ (openDir 0 s'.dir).mirror.snapshot = snap := by
  intro snap
  have hconf : threeSynced.Conflicts snap := by decide +kernel
  have happ := Storage.applySnapshot_conflict hconf 0
  have hempty : Dir.Named {} := ⟨List.nodup_nil,by simp⟩
  refine ⟨_,happ,?_⟩
  exact ((applySnapshot_reads_back_iff (runs_threeSynced _ Call.Words hempty trivial trivial) (by decide) happ).1.mpr (by decide)).2

theorem openDir_over (maxSegmentSize : Nat) {snap : Snapshot} (hpos : 0 < snap.metadata.index)
    (hbig : sanityMaxPayload < 21 + snap.data.length) (hword : 21 + snap.data.length < 2 ^ 32) :
    ∃ s', (openDir maxSegmentSize {}).applySnapshot maxSegmentSize snap = .ok s' ∧
      (openDir maxSegmentSize s'.dir).mirror.snapshot = {} := by
  have hconf : ¬ (openDir maxSegmentSize {}).Conflicts snap := by
    rw [openDir_empty]
    intro hc
    exact Nat.not_lt_zero _ hc.2.1
  have hlt : (openDir maxSegmentSize {}).offset < snap.metadata.index := hpos
  refine ⟨_,Storage.applySnapshot_clean hlt hconf maxSegmentSize,?_⟩
  have hsnaps : ((openDir maxSegmentSize {}).dir.perform
      (.install snap.metadata.index (appendFrame [] (snapPayload snap false)))).snaps =
        [(snap.metadata.index,appendFrame [] (snapPayload snap false))] := rfl
  have hload : loadLatestSnapshot ((openDir maxSegmentSize {}).dir.perform
      (.install snap.metadata.index (appendFrame [] (snapPayload snap false)))) {} = {} := by
    simp [loadLatestSnapshot,listing,readFile,hsnaps,readSnapshotFile_over hbig hword]
  rw [(Storage.Steady.openDir ..).snapshot]
  exact congrArg (·.snapshot) hload

/-- 64 MiB of data. -/
theorem applySnapshot_unreadable :
    let snap : Snapshot := { metadata := { index := 1, term := 1 }, data := List.replicate (64 * 2 ^ 20) 0 }
    ∃ s', (openDir 0 {}).applySnapshot 0 snap = .ok s' ∧ (openDir 0 s'.dir).mirror.snapshot = {} := by
  intro snap
  have hlen : snap.data.length = 64 * 2 ^ 20 := List.length_replicate
  refine openDir_over 0 Nat.one_pos ?_ ?_ <;> rw [hlen] <;> decide

end Parallax.Disk
