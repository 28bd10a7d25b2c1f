import Parallax.Disk.Calls
import Parallax.Disk.SnapFile

/-! Storages and directories along a run of calls, crashes and reopenings. What a storage wrote is
a list of records: `done` on disk and `pend` in the buffer. -/
namespace Parallax.Disk
open Scan

/-- `d` holds the records `recs`, and maybe a stub. -/
def Holding (d : Dir) (recs : List Record) : Prop :=
  ∃ files seq last t, Laid d files seq last t ∧ files.flatMap (·.2) ++ last = recs

theorem Cut.append {ops ops' : List FileOp} {d d' : Dir} (h : Cut (ops ++ ops') d d') :
    Cut ops d d' ∨ Cut ops' (ops.foldl Dir.perform d) d' := by
  induction ops generalizing d with
  | nil => exact .inr h
  | cons op ops ih =>
    cases h with
    | now => exact .inl (.now _ _)
    | torn seq bs k => exact .inl (.torn seq bs k ops d)
    | next h => exact (ih h).imp .next id

theorem Cut.all (ops : List FileOp) (d : Dir) : Cut ops d (ops.foldl Dir.perform d) := by
  induction ops generalizing d with
  | nil => exact .now _ _
  | cons op ops ih => exact .next (ih _)

/-- File operations of `syncBuffered`. -/
def Storage.flushOps (maxSegmentSize : Nat) (s : Storage) : List FileOp :=
  if s.buf.length = 0 then []
  else if s.segSize ≥ maxSegmentSize then [.create (s.segSeq + 1),.append (s.segSeq + 1) s.buf]
  else [.append s.segSeq s.buf]

theorem Storage.syncBuffered_dir (maxSegmentSize : Nat) (s : Storage) :
    (s.syncBuffered maxSegmentSize).dir = (s.flushOps maxSegmentSize).foldl Dir.perform s.dir := by
  unfold syncBuffered flushOps
  split
  · rfl
  · simp only
    split <;> rfl

theorem Storage.syncBuffered_ops (maxSegmentSize : Nat) (s : Storage) :
    (s.syncBuffered maxSegmentSize).ops = s.ops ++ s.flushOps maxSegmentSize := by
  unfold syncBuffered flushOps
  split
  · simp
  split
  · simp [perform,rotateSegment]
  · simp [perform]

structure Storage.Kept (s : Storage) (done pend : List Record) : Prop where
  laid : ∃ files last, Laid s.dir files s.segSeq last [] ∧ files.flatMap (·.2) ++ last = done
  buf : s.buf = bytes pend
  fits : ∀ r ∈ pend, r.Fits

namespace Storage.Kept
variable {s : Storage} {done pend : List Record}

theorem holding (h : s.Kept done pend) : Holding s.dir done := by
  obtain ⟨files,last,hl,rfl⟩ := h.laid
  exact ⟨files,_,last,[],hl,rfl⟩

theorem fits_done (h : s.Kept done pend) : ∀ r ∈ done, r.Fits := by
  obtain ⟨files,last,hl,rfl⟩ := h.laid
  exact hl.fits

theorem push (h : s.Kept done pend) {r : Record} (hr : r.Fits) {m : Mirror} :
    ({ s with mirror := m, buf := appendFrame s.buf r.payload } : Storage).Kept done (pend ++ [r]) where
  laid := h.laid
  buf := by rw [h.buf,appendFrame_bytes]
  fits := by simpa [or_imp,forall_and] using ⟨h.fits,hr⟩

private theorem with_mirror (h : s.Kept done pend) (m : Mirror) : ({ s with mirror := m } : Storage).Kept done pend :=
  ⟨h.laid,h.buf,h.fits⟩

theorem sync (h : s.Kept done pend) (maxSegmentSize : Nat) :
    (s.syncBuffered maxSegmentSize).Kept (done ++ pend) [] := by
  obtain ⟨files,last,hl,rfl⟩ := h.laid
  unfold syncBuffered
  split
  · rename_i hb
    have hb : pend = [] := by rw [← bytes_eq_nil,← h.buf]; exact List.length_eq_zero_iff.mp hb
    refine ⟨⟨files,last,hl,by simp [hb]⟩,by rw [h.buf,hb],by simp⟩
  split
  · refine ⟨⟨files ++ [(s.segSeq,last)],pend,?_,by simp⟩,rfl,by simp⟩
    have := hl.create.append_all h.fits
    rwa [← h.buf] at this
  refine ⟨⟨files,last ++ pend,?_,by simp⟩,rfl,by simp⟩
  have := hl.append_all h.fits
  rwa [← h.buf] at this

theorem sync_snaps (s : Storage) (maxSegmentSize : Nat) :
    (s.syncBuffered maxSegmentSize).dir.snaps = s.dir.snaps := by
  unfold syncBuffered
  split
  · rfl
  split
  · simp only [perform,rotateSegment,Dir.perform,Dir.edit]
    split <;> rfl
  · rfl

/-- A crash while the buffer is flushed. -/
theorem cut (h : s.Kept done pend) {maxSegmentSize : Nat} {d : Dir} (hd : Cut (s.flushOps maxSegmentSize) s.dir d) :
    d.snaps = s.dir.snaps ∧ ∃ j, Holding d (done ++ pend.take j) := by
  obtain ⟨files,last,hl,rfl⟩ := h.laid
  have hstart : Holding s.dir (files.flatMap (·.2) ++ last ++ pend.take 0) := ⟨files,_,last,[],hl,by simp⟩
  -- The bytes of the buffer that arrive, in whichever segment is active.
  have happend : ∀ {d₀ : Dir} {files₀ : List (Nat × List Record)} {seq : Nat} {last₀ : List Record} (k : Nat),
      Laid d₀ files₀ seq last₀ [] → files₀.flatMap (·.2) ++ last₀ = files.flatMap (·.2) ++ last →
      ∃ j, Holding (d₀.perform (.append seq (s.buf.take k))) (files.flatMap (·.2) ++ last ++ pend.take j) := by
    intro d₀ files₀ seq last₀ k hl₀ heq
    obtain ⟨j,t,hj⟩ := hl₀.append h.fits k
    rw [← h.buf] at hj
    exact ⟨j,files₀,seq,_,t,hj,by rw [← heq,List.append_assoc]⟩
  have hall : s.buf.take s.buf.length = s.buf := List.take_length
  unfold flushOps at hd
  split at hd
  · cases hd with
    | now => exact ⟨rfl,0,hstart⟩
  split at hd
  · cases hd with
    | now => exact ⟨rfl,0,hstart⟩
    | next hd =>
      have hsnaps : (s.dir.perform (.create (s.segSeq + 1))).snaps = s.dir.snaps := by
        simp only [Dir.perform]
        split <;> rfl
      have hrecs : (files ++ [(s.segSeq,last)]).flatMap (·.2) ++ [] = files.flatMap (·.2) ++ last := by simp
      cases hd with
      | now => exact ⟨hsnaps,0,_,_,_,_,hl.create,by simp⟩
      | torn _ _ k => exact ⟨hsnaps,happend k hl.create hrecs⟩
      | next hd =>
        cases hd with
        | now => exact ⟨hsnaps,hall ▸ happend s.buf.length hl.create hrecs⟩
  cases hd with
  | now => exact ⟨rfl,0,hstart⟩
  | torn _ _ k => exact ⟨rfl,happend k hl rfl⟩
  | next hd =>
    cases hd with
    | now => exact ⟨rfl,hall ▸ happend s.buf.length hl rfl⟩

/-- The marker of the current snapshot goes out with the buffer. -/
theorem writeMarker (h : s.Kept done pend)
    (hmd : U64 s.mirror.snapshot.metadata.index ∧ U64 s.mirror.snapshot.metadata.term) (maxSegmentSize : Nat) :
    (s.writeMarker maxSegmentSize).Kept (done ++ (pend ++ [.truncate s.mirror.snapshot.metadata])) [] :=
  ((h.push (r := .truncate s.mirror.snapshot.metadata) hmd).sync maxSegmentSize).with_mirror _

theorem cut_writeMarker (h : s.Kept done pend)
    (hmd : U64 s.mirror.snapshot.metadata.index ∧ U64 s.mirror.snapshot.metadata.term) {maxSegmentSize : Nat}
    {d : Dir} (hd : Cut ((s.writeMarker maxSegmentSize).ops.drop s.ops.length) s.dir d) :
    d.snaps = s.dir.snaps ∧ ∃ j, Holding d (done ++ (pend ++ [Record.truncate s.mirror.snapshot.metadata]).take j) := by
  simp only [Storage.writeMarker,syncBuffered_ops,List.drop_left] at hd
  exact (h.push (r := .truncate s.mirror.snapshot.metadata) hmd (m := s.mirror)).cut hd

end Storage.Kept

theorem Storage.writeMarker_mirror (s : Storage) (maxSegmentSize : Nat) :
    (s.writeMarker maxSegmentSize).mirror = { s.mirror with snapshotTruncationPending := false } := by
  simp [writeMarker]

theorem Storage.writeMarker_snaps (s : Storage) (maxSegmentSize : Nat) :
    (s.writeMarker maxSegmentSize).dir.snaps = s.dir.snaps := Kept.sync_snaps ..

/-- `d` holds the snapshot `snap` and records that replay above it to `es`. -/
structure Readable (d : Dir) (snap : Snapshot) (flag : Bool) (recs : List Record) (es : List Entry) : Prop where
  holding : Holding d recs
  newest : Newest d snap flag
  number : U64 snap.metadata.index ∧ U64 snap.metadata.term
  log : logOf snap.metadata.index recs = some es

/-- A storage in use, whatever became of its snapshot file. The entries that a replay above the
snapshot finds are those of the mirror, unless the mirror has none. -/
structure Storage.Held (s : Storage) (done pend : List Record) (es : List Entry) : Prop extends s.Kept done pend where
  named : s.dir.Named
  topped : s.dir.Topped s.offset
  number : U64 s.mirror.snapshot.metadata.index ∧ U64 s.mirror.snapshot.metadata.term
  log : logOf s.offset (done ++ pend) = some es
  entries : s.mirror.entries ≠ [] → es = s.mirror.entries
  hard : s.mirror.hardState = hardOf (done ++ pend)
  settled : s.mirror.snapshotTruncationPending = false

/-- A storage whose snapshot `Open` would load. -/
structure Storage.Backed (s : Storage) (flag : Bool) (done pend : List Record) (es : List Entry) : Prop
    extends s.Held done pend es where
  load : loadLatestSnapshot s.dir {} = { snapshot := s.mirror.snapshot, snapshotTruncationPending := flag }
  marked : flag = true → .truncate s.mirror.snapshot.metadata ∈ done

theorem Storage.Backed.newest {s : Storage} {flag : Bool} {done pend : List Record} {es : List Entry}
    (h : s.Backed flag done pend es) : Newest s.dir s.mirror.snapshot flag := ⟨h.named,h.load⟩

/-- Directories that runs leave: markers belong to the snapshot or to older ones. -/
structure Intact (d : Dir) (snap : Snapshot) (flag : Bool) (recs : List Record) (es : List Entry) : Prop
    extends Readable d snap flag recs es where
  below : MarkedBelow snap.metadata.index recs

structure Storage.Sound (s : Storage) (flag : Bool) (done pend : List Record) (es : List Entry) : Prop
    extends s.Backed flag done pend es where
  below : MarkedBelow s.offset (done ++ pend)

theorem MarkedBelow.left {off : Nat} {rs rs' : List Record} (h : MarkedBelow off (rs ++ rs')) : MarkedBelow off rs :=
  fun md hmd => h md (List.mem_append_left _ hmd)

theorem MarkedBelow.append {off : Nat} {rs rs' : List Record} (h : MarkedBelow off rs) (h' : MarkedBelow off rs') :
    MarkedBelow off (rs ++ rs') :=
  fun md hmd => (List.mem_append.mp hmd).elim (h md) (h' md)

theorem MarkedBelow.mono {off off' : Nat} {rs : List Record} (h : MarkedBelow off rs) (ho : off ≤ off') :
    MarkedBelow off' rs :=
  fun md hmd => (h md hmd).trans ho

/-- What was replayed in front is replayed. -/
theorem logOf_left {off : Nat} {rs rs' : List Record} {es : List Entry} (h : logOf off (rs ++ rs') = some es) :
    ∃ es₀, logOf off rs = some es₀ := by
  rw [logOf_append] at h
  obtain ⟨es₀,h₀,-⟩ := Option.bind_eq_some_iff.mp h
  exact ⟨es₀,h₀⟩

/-- A marker empties the log. -/
theorem logOf_marker {off : Nat} {rs : List Record} {es : List Entry} (h : logOf off rs = some es)
    {md : SnapshotMetadata} (hmd : md.index ≤ off) : logOf off (rs ++ [.truncate md]) = some [] := by
  rw [logOf_append,h,Option.bind_some,feed_singleton,logStep,if_pos hmd]

theorem markedBelow_entries (off : Nat) (es : List Entry) : MarkedBelow off (es.map .entry) := by
  intro md hmd
  simp at hmd

theorem markedBelow_marker (md : SnapshotMetadata) : MarkedBelow md.index [.truncate md] := by
  intro md' hmd
  simp at hmd
  rw [hmd]

theorem MarkedBelow.take {off : Nat} {done pend : List Record} {j : Nat} (h : MarkedBelow off (done ++ pend)) :
    MarkedBelow off (done ++ pend.take j) := by
  rw [← List.take_append_drop j pend,← List.append_assoc] at h
  exact h.left

theorem Readable.of_front {d : Dir} {snap : Snapshot} {flag : Bool} {done pend : List Record} {es : List Entry} {j : Nat}
    (hd : Holding d (done ++ pend.take j)) (hn : Newest d snap flag)
    (hfits : U64 snap.metadata.index ∧ U64 snap.metadata.term) (hlog : logOf snap.metadata.index (done ++ pend) = some es) :
    ∃ es₀, Readable d snap flag (done ++ pend.take j) es₀ := by
  rw [← List.take_append_drop j pend,← List.append_assoc] at hlog
  obtain ⟨es₀,h₀⟩ := logOf_left hlog
  exact ⟨es₀,hd,hn,hfits,h₀⟩

theorem Intact.of_front {d : Dir} {snap : Snapshot} {flag : Bool} {done pend : List Record} {es : List Entry} {j : Nat}
    (hd : Holding d (done ++ pend.take j)) (hn : Newest d snap flag)
    (hfits : U64 snap.metadata.index ∧ U64 snap.metadata.term)
    (hbelow : MarkedBelow snap.metadata.index (done ++ pend)) (hlog : logOf snap.metadata.index (done ++ pend) = some es) :
    ∃ es₀, Intact d snap flag (done ++ pend.take j) es₀ := by
  obtain ⟨es₀,h₀⟩ := Readable.of_front hd hn hfits hlog
  exact ⟨es₀,h₀,hbelow.take⟩

theorem Storage.Sound.intact {s : Storage} {flag : Bool} {done pend : List Record} {es : List Entry}
    (h : s.Sound flag done pend es) : ∃ es₀, Intact s.dir s.mirror.snapshot flag done es₀ := by
  obtain ⟨es₀,h₀⟩ := logOf_left h.log
  exact ⟨es₀,⟨h.toKept.holding,h.newest,h.number,h₀⟩,h.below.left⟩

theorem Storage.Backed.readable {s : Storage} {flag : Bool} {done : List Record} {es : List Entry}
    (h : s.Backed flag done [] es) : Readable s.dir s.mirror.snapshot flag done es := by
  have hlog := h.log
  rw [List.append_nil] at hlog
  exact ⟨h.toKept.holding,h.newest,h.number,hlog⟩

namespace Readable
variable {d : Dir} {snap : Snapshot} {flag : Bool} {recs : List Record} {es : List Entry}

/-- The mirror after the replay in `Open`. -/
def replayed (snap : Snapshot) (flag : Bool) (recs : List Record) (es : List Entry) : Mirror :=
  { hardState := hardOf recs
    snapshot := snap
    entries := es
    snapshotTruncationPending := flag && decide (.truncate snap.metadata ∉ recs) }

/-- The replay takes every record and cuts off the stub. -/
theorem loadDir_laid {files : List (Nat × List Record)} {seq : Nat} {last : List Record} {t : Bytes}
    (hl : Laid d files seq last t)
    (hn : loadLatestSnapshot d {} = { snapshot := snap, snapshotTruncationPending := flag })
    (hlog : logOf snap.metadata.index (files.flatMap (·.2) ++ last) = some es) :
    loadDir d =
      { dir := { d with segs := files.map (fun f => (f.1,bytes f.2)) ++ [(seq,bytes last)] }
        mirror := replayed snap flag (files.flatMap (·.2) ++ last) es
        segSize := (bytes last).length
        segSeq := seq
        ops := if t = [] then [] else [.truncate seq (bytes last).length] } := by
  have hasc : (d.segs.map (·.1)).Pairwise (· < ·) := hl.names ▸ hl.asc
  have hread : ∀ f ∈ files, readFile d.segs f.1 = bytes f.2 := fun f hf =>
    readFile_of_mem hasc (f := (f.1,bytes f.2)) (by rw [hl.segs]; exact List.mem_append_left _ (List.mem_map_of_mem hf))
  have hlast : readFile d.segs seq = bytes last ++ t :=
    readFile_of_mem hasc (f := (seq,bytes last ++ t)) (by rw [hl.segs]; simp)
  have hfeed : feed Mirror.redo (loadLatestSnapshot d {}) (files.flatMap (·.2) ++ last) =
      some (replayed snap flag (files.flatMap (·.2) ++ last) es) := by
    rw [hn,Mirror.feed_redo]
    exact congrArg (Option.map _) hlog
  have hload := replaySegments_eq (s := { dir := d, mirror := loadLatestSnapshot d {} }) hl.stub hread hlast hl.fits hfeed
  simp only [loadDir]
  rw [listing_eq hasc,hl.names,hload]
  simp only [Storage.openActiveSegment,List.getLast?_concat]
  by_cases htn : t = []
  · subst htn
    have hd : { d with segs := files.map (fun f => (f.1,bytes f.2)) ++ [(seq,bytes last)] } = d := by
      rw [← List.append_nil (bytes last),← hl.segs]
    rw [if_pos rfl,if_pos rfl,hd,hlast,List.append_nil]
  have hcut : d.perform (.truncate seq (bytes last).length) =
      { d with segs := files.map (fun f => (f.1,bytes f.2)) ++ [(seq,bytes last)] } := by
    rw [Dir.perform,hl.edit,List.take_left]
  have hread' : readFile (d.perform (.truncate seq (bytes last).length)).segs seq = bytes last :=
    readFile_of_mem (by rw [hl.truncate.names]; exact hl.truncate.asc) (f := (seq,bytes last)) (by rw [hcut]; simp)
  rw [if_neg htn,if_neg htn,← hcut]
  simp only [Storage.perform,hread',List.nil_append]

private theorem loadDir_eq (h : Readable d snap flag recs es) :
    (loadDir d).Kept recs [] ∧ (loadDir d).dir.snaps = d.snaps ∧ (loadDir d).mirror = replayed snap flag recs es ∧
      (loadDir d).dir = (loadDir d).ops.foldl Dir.perform d ∧
      ∀ d', Cut (loadDir d).ops d d' → Readable d' snap flag recs es := by
  obtain ⟨files,seq,last,t,hl,rfl⟩ := h.holding
  have hclean : Laid { d with segs := files.map (fun f => (f.1,bytes f.2)) ++ [(seq,bytes last)] } files seq last [] :=
    ⟨by simp,hl.asc,.nil,hl.fits⟩
  have hdir : (if t = [] then [] else [FileOp.truncate seq (bytes last).length]).foldl Dir.perform d =
      { d with segs := files.map (fun f => (f.1,bytes f.2)) ++ [(seq,bytes last)] } := by
    split
    · rename_i htn
      rw [← List.append_nil (bytes last),← htn,← hl.segs]
      rfl
    · simp [Dir.perform,hl.edit]
  rw [loadDir_laid hl h.newest.load h.log]
  refine ⟨⟨⟨files,last,hclean,rfl⟩,rfl,by simp⟩,rfl,rfl,hdir.symm,fun d' hd' => ?_⟩
  split at hd'
  · cases hd' with
    | now => exact h
  cases hd' with
  | now => exact h
  | next hd' =>
    cases hd' with
    | now => exact ⟨⟨files,seq,last,[],hl.truncate,rfl⟩,h.newest.snaps_eq rfl,h.number,h.log⟩

/-- `Open` with the marker in place. -/
theorem openDir_marked (h : Readable d snap flag recs es) (hmark : flag = true → .truncate snap.metadata ∈ recs)
    (maxSegmentSize : Nat) :
    (openDir maxSegmentSize d).Backed flag recs [] es ∧
      (openDir maxSegmentSize d).mirror = { hardState := hardOf recs, snapshot := snap, entries := es } ∧
      (∀ d', Cut (openDir maxSegmentSize d).ops d d' → Readable d' snap flag recs es) := by
  obtain ⟨hkept,hsnaps,hmirror,-,hcut⟩ := h.loadDir_eq
  have hclear : (flag && decide (.truncate snap.metadata ∉ recs)) = false := by
    cases flag with
    | false => rfl
    | true => simp [hmark rfl]
  have hopen : openDir maxSegmentSize d = loadDir d := by
    simp only [openDir,hmirror,replayed,hclear]
    rfl
  rw [replayed,hclear] at hmirror
  have hoff : (loadDir d).offset = snap.metadata.index := by rw [Storage.offset,hmirror]
  rw [hopen]
  have hnewest : Newest (loadDir d).dir (loadDir d).mirror.snapshot flag := by
    rw [hmirror]
    exact h.newest.snaps_eq hsnaps
  refine ⟨⟨⟨hkept,hnewest.named,hnewest.topped,?_,?_,?_,?_,?_⟩,hnewest.load,?_⟩,hmirror,hcut⟩
  · rw [hmirror]
    exact h.number
  · rw [hoff,List.append_nil]
    exact h.log
  · rw [hmirror]
    exact fun _ => rfl
  · rw [hmirror,List.append_nil]
  · rw [hmirror]
  · rw [hmirror]
    exact hmark

theorem openDir_unmarked (h : Readable d snap true recs es) (hmark : .truncate snap.metadata ∉ recs)
    (maxSegmentSize : Nat) :
    (openDir maxSegmentSize d).Backed true (recs ++ [.truncate snap.metadata]) [] [] ∧
      (openDir maxSegmentSize d).mirror = { hardState := hardOf recs, snapshot := snap } ∧
      (∀ d', Cut (openDir maxSegmentSize d).ops d d' →
        Readable d' snap true recs es ∨ Readable d' snap true (recs ++ [.truncate snap.metadata]) []) := by
  obtain ⟨hkept,hsnaps,hmirror,hdir,hcut⟩ := h.loadDir_eq
  have hpend : (replayed snap true recs es).snapshotTruncationPending = true := by simp [replayed,hmark]
  let s : Storage := { loadDir d with mirror := { (loadDir d).mirror with entries := [] } }
  have hs : s.mirror = { hardState := hardOf recs, snapshot := snap, snapshotTruncationPending := true } := by
    simp only [s,hmirror,replayed,Bool.true_and,decide_eq_true hmark]
  have hopen : openDir maxSegmentSize d = s.writeMarker maxSegmentSize := by
    simp only [openDir,hmirror,hpend,if_true,s]
  have hm : (s.writeMarker maxSegmentSize).mirror = { hardState := hardOf recs, snapshot := snap } := by
    rw [Storage.writeMarker_mirror,hs]
  have hmd : s.mirror.snapshot = snap := by rw [hs]
  have hkept : s.Kept recs [] := hkept.with_mirror _
  have hdone := hkept.writeMarker (by rw [hmd]; exact h.number) maxSegmentSize
  rw [hmd,List.nil_append] at hdone
  have hnewest : Newest (s.writeMarker maxSegmentSize).dir (s.writeMarker maxSegmentSize).mirror.snapshot true := by
    rw [hm]
    exact h.newest.snaps_eq ((s.writeMarker_snaps _).trans hsnaps)
  rw [hopen]
  refine ⟨⟨⟨hdone,hnewest.named,hnewest.topped,?_,?_,?_,?_,?_⟩,hnewest.load,?_⟩,hm,?_⟩
  · rw [hm]
    exact h.number
  · rw [Storage.offset,hm,List.append_nil]
    exact logOf_marker h.log le_rfl
  · rw [hm]
    exact fun hne => absurd rfl hne
  · rw [hm]
    simp [hardStep]
  · rw [hm]
  · rw [hm]
    simp
  intro d' hd'
  have hops : (s.writeMarker maxSegmentSize).ops = s.ops ++ (s.writeMarker maxSegmentSize).ops.drop s.ops.length := by
    simp [Storage.writeMarker,Storage.syncBuffered_ops]
  rw [hops] at hd'
  rcases hd'.append with hd' | hd'
  · exact .inl (hcut d' hd')
  rw [show s.ops.foldl Dir.perform d = s.dir from hdir.symm] at hd'
  obtain ⟨hsnaps',j,hj⟩ := hkept.cut_writeMarker (by rw [hmd]; exact h.number) hd'
  have hnewest := h.newest.snaps_eq (hsnaps'.trans hsnaps)
  rw [hmd,List.nil_append] at hj
  rcases j with - | j
  · exact .inl ⟨by simpa using hj,hnewest,h.number,h.log⟩
  · exact .inr ⟨by simpa using hj,hnewest,h.number,logOf_marker h.log le_rfl⟩

theorem opened (h : Readable d snap flag recs es) (maxSegmentSize : Nat) :
    (∃ recs' es', (openDir maxSegmentSize d).Backed flag recs' [] es' ∧ (openDir maxSegmentSize d).mirror.snapshot = snap ∧
      (recs' = recs ∨ recs' = recs ++ [.truncate snap.metadata])) ∧
    ∀ d', Cut (openDir maxSegmentSize d).ops d d' →
      ∃ recs' es', Readable d' snap flag recs' es' ∧ (recs' = recs ∨ recs' = recs ++ [.truncate snap.metadata]) := by
  by_cases hmark : flag = true → .truncate snap.metadata ∈ recs
  · obtain ⟨h₁,hm,h₂⟩ := h.openDir_marked hmark maxSegmentSize
    exact ⟨⟨_,_,h₁,by rw [hm],.inl rfl⟩,fun d' hd' => ⟨_,_,h₂ d' hd',.inl rfl⟩⟩
  rw [Classical.not_imp] at hmark
  obtain ⟨rfl,hmark⟩ := hmark
  obtain ⟨h₁,hm,h₂⟩ := h.openDir_unmarked hmark maxSegmentSize
  refine ⟨⟨_,_,h₁,by rw [hm],.inr rfl⟩,fun d' hd' => ?_⟩
  rcases h₂ d' hd' with h' | h'
  · exact ⟨_,_,h',.inl rfl⟩
  · exact ⟨_,_,h',.inr rfl⟩

end Readable

namespace Intact
variable {d : Dir} {snap : Snapshot} {flag : Bool} {recs : List Record} {es : List Entry}

/-- `Open` and every crash inside it. -/
theorem opened (h : Intact d snap flag recs es) (maxSegmentSize : Nat) :
    (∃ recs' es', (openDir maxSegmentSize d).Sound flag recs' [] es') ∧
      ∀ d', Cut (openDir maxSegmentSize d).ops d d' → ∃ recs' es', Intact d' snap flag recs' es' := by
  have hbelow : ∀ {recs'}, recs' = recs ∨ recs' = recs ++ [.truncate snap.metadata] →
      MarkedBelow snap.metadata.index recs' := by
    rintro _ (rfl | rfl)
    · exact h.below
    · exact h.below.append (markedBelow_marker snap.metadata)
  obtain ⟨⟨recs',es',hb,hsnap,hrecs⟩,hcut⟩ := h.toReadable.opened maxSegmentSize
  constructor
  · refine ⟨recs',es',hb,?_⟩
    rw [Storage.offset,hsnap,List.append_nil]
    exact hbelow hrecs
  intro d' hd'
  obtain ⟨recs'',es'',hr,hrecs'⟩ := hcut d' hd'
  exact ⟨recs'',es'',hr,hbelow hrecs'⟩

end Intact
end Parallax.Disk
