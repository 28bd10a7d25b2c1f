import Parallax.Disk.Reopen

/-! A snapshot that conflicts with the log is installed together with the truncation of the
suffix, whatever the crash, as long as its file can be read back and the log holds no marker of an
earlier attempt. -/
namespace Parallax.Disk
open Scan BigEndian

/-- Directories that opening `d` leaves, any number of times and with crashes inside. -/
inductive Opens (maxSegmentSize : Nat) (d : Dir) : Dir → Prop where
  | refl : Opens maxSegmentSize d d
  | opened {d' : Dir} : Opens maxSegmentSize d d' → Opens maxSegmentSize d (openDir maxSegmentSize d').dir
  | crashed {d' d'' : Dir} : Opens maxSegmentSize d d' → Cut (openDir maxSegmentSize d').ops d' d'' →
      Opens maxSegmentSize d d''

/-- Old or new, but no mixture, after any crash in `ApplySnapshot` and in the openings that
follow; and what is synced afterwards is found by all later openings. -/
def Atomic (maxSegmentSize : Nat) (s : Storage) (snap : Snapshot) : Prop :=
  ∀ s' d d', s.applySnapshot maxSegmentSize snap = .ok s' → Cut (s'.ops.drop s.ops.length) s.dir d →
    Opens maxSegmentSize d d' →
    let r := openDir maxSegmentSize d'
    ((r.mirror.snapshot = s.mirror.snapshot ∧ r.mirror.entries = s.mirror.entries) ∨
      (r.mirror.snapshot = snap ∧ r.mirror.entries = [])) ∧
    ∀ cs : List Call, (∀ c ∈ cs, c.Fits ∧ c.Appends) →
      let r' := (r.run maxSegmentSize (cs ++ [.sync])).1
      ∀ d'', Opens maxSegmentSize r'.dir d'' → (openDir maxSegmentSize d'').mirror = r'.mirror

namespace Readable
variable {d d' : Dir} {snap : Snapshot} {flag : Bool} {recs : List Record} {es : List Entry} {maxSegmentSize : Nat}

private theorem opens_marked (h : Readable d snap flag recs es) (hmark : flag = true → .truncate snap.metadata ∈ recs)
    (ho : Opens maxSegmentSize d d') : Readable d' snap flag recs es := by
  induction ho with
  | refl => exact h
  | opened _ ih =>
    obtain ⟨hb,hm,-⟩ := ih.openDir_marked hmark maxSegmentSize
    have := hb.readable
    rwa [hm] at this
  | crashed _ hc ih => exact (ih.openDir_marked hmark maxSegmentSize).2.2 _ hc

theorem opens_unmarked (h : Readable d snap true recs es) (hmark : .truncate snap.metadata ∉ recs)
    (ho : Opens maxSegmentSize d d') :
    Readable d' snap true recs es ∨ Readable d' snap true (recs ++ [.truncate snap.metadata]) [] := by
  have hdone : ∀ {d₁}, Readable d₁ snap true (recs ++ [.truncate snap.metadata]) [] →
      true = true → .truncate snap.metadata ∈ recs ++ [.truncate snap.metadata] := by simp
  induction ho with
  | refl => exact .inl h
  | opened _ ih =>
    rcases ih with ih | ih
    · obtain ⟨hb,hm,-⟩ := ih.openDir_unmarked hmark maxSegmentSize
      have := hb.readable
      rw [hm] at this
      exact .inr this
    obtain ⟨hb,hm,-⟩ := ih.openDir_marked (hdone ih) maxSegmentSize
    have := hb.readable
    rw [hm] at this
    exact .inr this
  | crashed _ hc ih =>
    rcases ih with ih | ih
    · exact (ih.openDir_unmarked hmark maxSegmentSize).2.2 _ hc
    · exact .inr ((ih.openDir_marked (hdone ih) maxSegmentSize).2.2 _ hc)

end Readable

namespace Storage.Backed
variable {s : Storage} {flag : Bool} {done : List Record} {maxSegmentSize : Nat}

private theorem opens (h : s.Backed flag done [] s.mirror.entries) {d : Dir} (ho : Opens maxSegmentSize s.dir d) :
    (openDir maxSegmentSize d).mirror = s.mirror := by
  have hhard := h.hard
  rw [List.append_nil] at hhard
  rw [((h.readable.opens_marked h.marked ho).openDir_marked h.marked maxSegmentSize).2.1,← hhard,← h.settled]

theorem appended {es : List Entry} (h : s.Backed flag done [] es) (hes : s.mirror.entries = es) {cs : List Call}
    (hc : ∀ c ∈ cs, c.Fits ∧ c.Appends) {d : Dir}
    (ho : Opens maxSegmentSize (s.run maxSegmentSize (cs ++ [.sync])).1.dir d) :
    (openDir maxSegmentSize d).mirror = (s.run maxSegmentSize (cs ++ [.sync])).1.mirror := by
  exact ((hes ▸ h).run_synced maxSegmentSize hc).1.opens ho

end Storage.Backed

theorem Storage.Kept.records {s : Storage} {done pend : List Record} (h : s.Kept done pend) : s.dir.records = done := by
  obtain ⟨files,last,hl,rfl⟩ := h.laid
  have hasc : (s.dir.segs.map (·.1)).Pairwise (· < ·) := hl.names ▸ hl.asc
  have hread : ∀ f ∈ files ++ [(s.segSeq,last)], segmentRecords (readFile s.dir.segs f.1) = f.2 := by
    intro f hf
    have hmem : (f.1,bytes f.2) ∈ s.dir.segs := by
      rw [hl.segs,List.append_nil]
      rcases List.mem_append.mp hf with hf | hf
      · exact List.mem_append_left _ (List.mem_map_of_mem hf)
      · rw [List.mem_singleton.mp hf]
        simp
    have hfits : ∀ r ∈ f.2, r.Fits := fun r hr => hl.fits r (by
      have : r ∈ (files ++ [(s.segSeq,last)]).flatMap (·.2) := List.mem_flatMap.mpr ⟨f,hf,hr⟩
      simpa using this)
    have hrec := recordsUpTo_bytes hfits .nil
    rw [List.append_nil,if_pos rfl] at hrec
    rw [readFile_of_mem hasc hmem,segmentRecords,hrec]
  rw [Dir.records,listing_eq hasc,hl.names]
  have hnames : files.map (·.1) ++ [s.segSeq] = (files ++ [(s.segSeq,last)]).map (·.1) := by simp
  rw [hnames,List.flatMap_map,List.flatMap_congr hread]
  simp

theorem Storage.Held.backed {s : Storage} {done : List Record} {es : List Entry} {maxSegmentSize : Nat}
    (h : s.Held done [] es) (hself : (openDir maxSegmentSize s.dir).mirror = s.mirror) (hne : s.mirror.entries ≠ []) :
    ∃ flag, s.Backed flag done [] es := by
  obtain ⟨snap,flag,hnew,hnumber⟩ := h.named.newest
  obtain ⟨d₁,recs,es₁,o,hr,-,hopen,-⟩ := h.toKept.holding.reload hnew hnumber
  obtain ⟨⟨_,_,-,hsnap,-⟩,-⟩ := hr.opened maxSegmentSize
  have hloaded : snap = s.mirror.snapshot := by rw [← hself,hopen,← hsnap]
  subst hloaded
  refine ⟨flag,h,hnew.load,fun hflag => ?_⟩
  subst hflag
  by_contra hmark
  have hlog := h.log
  rw [List.append_nil] at hlog
  have hread : Readable s.dir s.mirror.snapshot true done es := ⟨h.toKept.holding,hnew,hnumber,hlog⟩
  have hm := (hread.openDir_unmarked hmark maxSegmentSize).2.1
  rw [hself] at hm
  exact hne (by rw [hm])

namespace Storage.Backed
variable {s : Storage} {flag : Bool} {done : List Record} {es : List Entry} {maxSegmentSize : Nat} {snap : Snapshot}

theorem atomic (h : s.Backed flag done [] es) (hes : es = s.mirror.entries) (hconf : s.Conflicts snap)
    (hfits : SnapFits snap) (hmark : .truncate snap.metadata ∉ done) : Atomic maxSegmentSize s snap := by
  intro s' d d' hs hd ho
  rw [Storage.applySnapshot_conflict hconf] at hs
  obtain rfl := Except.ok.inj hs
  rcases h.cut_conflict hfits hconf.1 hd with rfl | ⟨j,es',h'⟩
  · -- The old directory.
    obtain ⟨hb,hm,-⟩ := (h.readable.opens_marked h.marked ho).openDir_marked h.marked maxSegmentSize
    exact ⟨.inl ⟨by rw [hm],by rw [hm,hes]⟩,fun cs hc d'' ho'' => hb.appended (by rw [hm]) hc ho''⟩
  -- The new snapshot, with or without its marker.
  have hnew : Readable d' snap true done es' ∨
      Readable d' snap true (done ++ [.truncate snap.metadata]) [] := by
    rcases j with - | j
    · simp only [List.nil_append,List.take_zero,List.append_nil] at h'
      exact h'.opens_unmarked hmark ho
    simp only [List.nil_append,List.take_succ_cons,List.take_nil] at h'
    obtain ⟨es₀,h₀⟩ := logOf_left h'.log
    have hnil := h'.log.symm.trans (logOf_marker h₀ (Nat.le_refl snap.metadata.index))
    rw [Option.some.inj hnil] at h'
    exact .inr (h'.opens_marked (by simp) ho)
  rcases hnew with hr | hr
  · obtain ⟨hb,hm,-⟩ := hr.openDir_unmarked hmark maxSegmentSize
    exact ⟨.inr ⟨by rw [hm],by rw [hm]⟩,fun cs hc d'' ho'' => hb.appended (by rw [hm]) hc ho''⟩
  · obtain ⟨hb,hm,-⟩ := hr.openDir_marked (by simp) maxSegmentSize
    exact ⟨.inr ⟨by rw [hm],by rw [hm]⟩,fun cs hc d'' ho'' => hb.appended (by rw [hm]) hc ho''⟩

theorem old_or_new (hatomic : Atomic maxSegmentSize s snap) (hconf : s.Conflicts snap) {d : Dir}
    (hd : Cut (((s.installed snap true []).writeMarker maxSegmentSize).ops.drop s.ops.length) s.dir d) :
    ((openDir maxSegmentSize d).mirror.snapshot = s.mirror.snapshot ∧
      (openDir maxSegmentSize d).mirror.entries = s.mirror.entries) ∨
    ((openDir maxSegmentSize d).mirror.snapshot = snap ∧ (openDir maxSegmentSize d).mirror.entries = []) :=
  (hatomic _ d d (Storage.applySnapshot_conflict hconf maxSegmentSize) hd .refl).1

theorem not_atomic_of_marked (h : s.Backed flag done [] es) (hes : es = s.mirror.entries) (hconf : s.Conflicts snap)
    (hfits : SnapFits snap) (hmark : .truncate snap.metadata ∈ done) : ¬ Atomic maxSegmentSize s snap := by
  intro hatomic
  have hlt := hconf.1
  have hnumber : U64 snap.metadata.index ∧ U64 snap.metadata.term := ⟨hfits.1,hfits.2.1⟩
  have hcut : Cut (((s.installed snap true []).writeMarker maxSegmentSize).ops.drop s.ops.length) s.dir
      (s.installed snap true []).dir := by
    simp only [writeMarker,syncBuffered_ops,installed,writeSnapshotFile,perform,List.append_assoc,List.drop_left]
    exact .next (.now _ _)
  have hlog := h.log
  rw [List.append_nil] at hlog
  obtain ⟨es',hes',hrem⟩ := logOf_later (Nat.le_of_lt hlt) hlog
  have hr : Readable (s.installed snap true []).dir snap true done es' :=
    ⟨(h.toKept.installed snap true []).holding,h.newest.install hfits hlt true,hnumber,hes'⟩
  have hm := (hr.openDir_marked (fun _ => hmark) maxSegmentSize).2.1
  have hdrop : es.drop (snap.metadata.index - s.offset) ≠ [] := by
    have := hconf.2.1
    exact List.ne_nil_of_length_pos (by rw [List.length_drop,hes]; omega)
  rcases old_or_new hatomic hconf hcut with ⟨hsnap,-⟩ | ⟨-,hnil⟩
  · rw [hm] at hsnap
    have : snap.metadata.index = s.offset := congrArg (·.metadata.index) hsnap
    omega
  · rw [hm,hrem hdrop] at hnil
    exact hdrop hnil

theorem not_atomic_of_big (h : s.Backed flag done [] es) (hes : es = s.mirror.entries) (hconf : s.Conflicts snap)
    (hnumber : U64 snap.metadata.index ∧ U64 snap.metadata.term) (hbig : sanityMaxPayload < 21 + snap.data.length) :
    ¬ Atomic maxSegmentSize s snap := by
  intro hatomic
  have hlt := hconf.1
  have hlast := hconf.2.1
  have hlog := h.log
  rw [List.append_nil] at hlog
  -- The directory after the whole call.
  let s' := (s.installed snap true []).writeMarker maxSegmentSize
  have hdir : s'.dir = (s'.ops.drop s.ops.length).foldl Dir.perform s.dir := by
    simp only [s',writeMarker,syncBuffered_dir,syncBuffered_ops,installed,writeSnapshotFile,perform,List.append_assoc,
      List.drop_left]
    rfl
  have hcut : Cut (s'.ops.drop s.ops.length) s.dir s'.dir := hdir ▸ Cut.all _ _
  have hkept := (h.toKept.installed snap true []).writeMarker hnumber maxSegmentSize
  rw [List.nil_append] at hkept
  have hsnaps : s'.dir.snaps = (s.installed snap true []).dir.snaps := writeMarker_snaps _ _
  cases hread : readSnapshotFile (appendFrame [] (snapPayload snap true)) with
  | none =>
    -- The old snapshot with the front of its log.
    have hfront : logOf s.mirror.snapshot.metadata.index (done ++ [.truncate snap.metadata]) =
        some (es.take (snap.metadata.index - s.offset)) := by
      rw [logOf_append]
      refine (congrArg (Option.bind · _) hlog).trans ?_
      rw [Option.bind_some,feed_singleton,logStep]
      unfold offset at hlt hlast
      rw [if_neg (by omega),if_pos (by rw [hes]; omega)]
      rfl
    have hr : Readable s'.dir s.mirror.snapshot flag (done ++ [.truncate snap.metadata])
        (es.take (snap.metadata.index - s.offset)) :=
      ⟨hkept.holding,(h.newest.install_unreadable hnumber hlt hread).snaps_eq hsnaps,h.number,hfront⟩
    have hm := (hr.openDir_marked (fun hf => List.mem_append_left _ (h.marked hf)) maxSegmentSize).2.1
    rcases old_or_new hatomic hconf hcut with ⟨-,hentries⟩ | ⟨hsnap,-⟩
    · rw [hm] at hentries
      have := congrArg List.length hentries
      simp only [hes,List.length_take] at this
      omega
    rw [hm] at hsnap
    have : s.offset = snap.metadata.index := congrArg (·.metadata.index) hsnap
    omega
  | some found =>
    -- Another snapshot altogether.
    obtain ⟨snap',f'⟩ := found
    obtain ⟨hmd,hne⟩ := readSnapshotFile_big hnumber hbig hread
    obtain ⟨es',hes',-⟩ := logOf_later (Nat.le_of_lt hlt) hlog
    have hr : Readable s'.dir snap' f' (done ++ [.truncate snap.metadata]) [] := by
      refine ⟨hkept.holding,(h.named.install_newest h.topped hlt hnumber hread).snaps_eq hsnaps,by rw [hmd]; exact hnumber,?_⟩
      rw [hmd]
      exact logOf_marker hes' le_rfl
    have hm := (hr.openDir_marked (by simp [hmd]) maxSegmentSize).2.1
    rcases old_or_new hatomic hconf hcut with ⟨hsnap,-⟩ | ⟨hsnap,-⟩
    · rw [hm] at hsnap
      have : snap'.metadata.index = s.offset := congrArg (·.metadata.index) hsnap
      rw [hmd] at this
      omega
    · rw [hm] at hsnap
      exact hne hsnap

end Storage.Backed

/-- In every run with snapshots of any size, a conflicting snapshot is installed atomically exactly
if its file is within the payload bound and the log holds no marker with its index and term. -/
theorem applySnapshot_atomic_iff {maxSegmentSize : Nat} {s : Storage}
    (hs : Runs maxSegmentSize (· = {}) Call.Framed (.up s)) (hbuf : s.buf = [])
    (hself : (openDir maxSegmentSize s.dir).mirror = s.mirror) {snap : Snapshot} (hconf : s.Conflicts snap)
    (hnumber : U64 snap.metadata.index ∧ U64 snap.metadata.term) :
    Atomic maxSegmentSize s snap ↔
      21 + snap.data.length ≤ sanityMaxPayload ∧ .truncate snap.metadata ∉ s.dir.records := by
  obtain ⟨done,pend,es,h⟩ := hs.held
  obtain rfl : pend = [] := by rw [← bytes_eq_nil,← h.buf,hbuf]
  have hne : s.mirror.entries ≠ [] := by
    have := hconf.1
    have := hconf.2.1
    exact List.ne_nil_of_length_pos (by omega)
  obtain ⟨flag,hb⟩ := h.backed hself hne
  have hes := h.entries hne
  rw [h.toKept.records]
  constructor
  · intro hatomic
    have hfits : 21 + snap.data.length ≤ sanityMaxPayload := by
      by_contra hbig
      exact hb.not_atomic_of_big hes hconf hnumber (Nat.lt_of_not_le hbig) hatomic
    exact ⟨hfits,fun hmark => hb.not_atomic_of_marked hes hconf ⟨hnumber.1,hnumber.2,hfits⟩ hmark hatomic⟩
  · rintro ⟨hfits,hmark⟩
    exact hb.atomic hes hconf ⟨hnumber.1,hnumber.2,hfits⟩ hmark

/-- Three entries of term 1, synced. -/
def threeSynced : Storage :=
  ((openDir 0 {}).run 0 [.appendEntries [{ term := 1, index := 1 },{ term := 1, index := 2 },{ term := 1, index := 3 }],.sync]).1

theorem runs_threeSynced (found : Dir → Prop) (allowed : Call → Prop) (hf : found {}) (hs : allowed .sync)
    (ha : allowed (.appendEntries [{ term := 1, index := 1 },{ term := 1, index := 2 },{ term := 1, index := 3 }])) :
    Runs 0 found allowed (.up threeSynced) :=
  .called (c := .sync) (.called (.opened (.found hf)) ha rfl) hs rfl

theorem applySnapshot_atomic_small : Atomic 0 threeSynced { metadata := { index := 2, term := 7 }, data := [1,2,3] } :=
  (applySnapshot_atomic_iff (runs_threeSynced _ Call.Framed rfl trivial (by decide)) (by decide +kernel) (by decide +kernel)
    (by decide +kernel) (by decide)).mpr ⟨by decide,by decide +kernel⟩

/-- With 64 MiB of data the snapshot file cannot be read back, and the marker has truncated the
log of the old snapshot. -/
theorem applySnapshot_mixture :
    let snap : Snapshot := { metadata := { index := 2, term := 7 }, data := List.replicate (64 * 2 ^ 20) 0 }
    Reach 0 (.up threeSynced) ∧ threeSynced.buf = [] ∧ (openDir 0 threeSynced.dir).mirror = threeSynced.mirror ∧
      threeSynced.Conflicts snap ∧ ¬ Atomic 0 threeSynced snap := by
  intro snap
  have hrun : Reach 0 (.up threeSynced) := runs_threeSynced _ Call.Fits rfl trivial (by decide)
  have hself : (openDir 0 threeSynced.dir).mirror = threeSynced.mirror := by decide +kernel
  have hconf : threeSynced.Conflicts snap := by decide +kernel
  obtain ⟨flag,done,pend,es,h⟩ := hrun.ok
  obtain rfl : pend = [] := by
    rw [← bytes_eq_nil,← h.buf]
    decide +kernel
  refine ⟨hrun,by decide +kernel,hself,hconf,?_⟩
  refine h.not_atomic_of_big (h.entries (by decide +kernel)) hconf (by decide) ?_
  rw [List.length_replicate]
  decide

end Parallax.Disk
