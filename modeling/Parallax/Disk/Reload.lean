import Parallax.Disk.Live

/-! `Open` on a directory of whole records that need not follow each other. A record that leaves a
gap ends the log there, like a torn one. -/
namespace Parallax.Disk
open Scan

theorem replaySegment_gap {s : Storage} {seq : Nat} {rs rs' : List Record} {r : Record} {u : Bytes} {m : Mirror}
    (hread : readFile s.dir.segs seq = bytes (rs ++ r :: rs') ++ u) (hfits : ∀ r' ∈ rs ++ r :: rs', r'.Fits)
    (hm : feed Mirror.redo s.mirror rs = some m) (hr : m.redo r = none) :
    s.replaySegment seq = (({ s with mirror := m } : Storage).perform (.truncate seq (bytes rs).length),true) := by
  have hrs : ∀ r' ∈ rs, r'.Fits := fun r' h => hfits r' (List.mem_append_left _ h)
  have hfit : r.Fits := hfits r (by simp)
  have hdata : readFile s.dir.segs seq = bytes rs ++ (frame r.payload ++ (bytes rs' ++ u)) := by
    rw [hread]
    simp [bytes]
  have hpos : 0 < (frame r.payload).length := frames.pos _ hfit.payload
  have hstop : (bytes rs).length < (readFile s.dir.segs seq).length := by
    rw [hdata,List.length_append,List.length_append]
    omega
  have hfront : scan readFrame Mirror.applyRecord ((readFile s.dir.segs seq).take (bytes rs).length)
      ((bytes rs).length + 1) 0 s.mirror = (m,none) := by
    have := frames.scan_stub (fits_payload hrs) .nil [] ((bytes rs).length + 1) s.mirror m (by rw [bytes]; omega)
      (by rw [Mirror.feed_payload hrs,hm])
    rw [hdata,List.take_left]
    simpa [bytes] using this
  have hbad : ((readFrame (readFile s.dir.segs seq) (bytes rs).length).bind fun f => m.applyRecord f.1) = none := by
    rw [hdata,readFrame_whole hfit.payload,Option.bind_some,Mirror.applyRecord_payload m hfit,hr]
  have hscan := readFrame_local.scan_stopped hstop hbad ((readFile s.dir.segs seq).length + 1) (Nat.zero_le _) hfront
    (by omega) (by omega)
  simp only [Storage.replaySegment,hscan]

theorem replaySegments_gap {front : List (Nat × List Record)} {n : Nat} {rs rs' : List Record} {r : Record} {u : Bytes}
    {m : Mirror} {later : List Nat} (hr : m.redo r = none) : ∀ {s : Storage},
    (∀ f ∈ front, readFile s.dir.segs f.1 = bytes f.2) → readFile s.dir.segs n = bytes (rs ++ r :: rs') ++ u →
    (∀ r' ∈ front.flatMap (·.2) ++ (rs ++ r :: rs'), r'.Fits) →
    feed Mirror.redo s.mirror (front.flatMap (·.2) ++ rs) = some m →
    s.replaySegments (front.map (·.1) ++ n :: later) =
      ((({ s with mirror := m } : Storage).perform (.truncate n (bytes rs).length)).removeSegments later,
        front.map (·.1) ++ [n]) := by
  induction front with
  | nil =>
    intro s _ hread hfits hm
    rw [List.map_nil,List.nil_append,Storage.replaySegments,
      replaySegment_gap hread (fun r' h => hfits r' (List.mem_append_right _ h)) hm hr]
    rfl
  | cons f front ih =>
    intro s hfiles hread hfits hm
    rw [List.flatMap_cons,List.append_assoc,feed_append] at hm
    obtain ⟨m₁,hm₁,hm⟩ := Option.bind_eq_some_iff.mp hm
    have hhead := replaySegment_eq (t := []) (by rw [hfiles f (by simp),List.append_nil]) .nil
      (fun r' hr' => hfits r' (by simp [hr'])) hm₁
    rw [if_pos rfl] at hhead
    rw [List.map_cons,List.cons_append,Storage.replaySegments,hhead]
    have := @ih { s with mirror := m₁ } (fun g hg => hfiles g (by simp [hg])) hread
      (fun r' hr' => hfits r' (by simp only [List.flatMap_cons,List.append_assoc]; exact List.mem_append_right _ hr')) hm
    simp only [this]
    rfl

theorem gap_split {L : List (Nat × List Record)} : ∀ {m : Mirror}, feed Mirror.redo m (L.flatMap (·.2)) = none →
    ∃ front n rs r rs' later m', L = front ++ (n,rs ++ r :: rs') :: later ∧
      feed Mirror.redo m (front.flatMap (·.2) ++ rs) = some m' ∧ m'.redo r = none := by
  induction L with
  | nil => intro m h; cases h
  | cons f L ih =>
    intro m h
    rw [List.flatMap_cons,feed_append] at h
    cases hf : feed Mirror.redo m f.2 with
    | none =>
      obtain ⟨rs,r,rs',m',heq,hm',hr⟩ := feed_eq_none hf
      exact ⟨[],f.1,rs,r,rs',L,m',by rw [← heq]; rfl,hm',hr⟩
    | some m₁ =>
      rw [hf,Option.bind_some] at h
      obtain ⟨front,n,rs,r,rs',later,m',rfl,hm',hr⟩ := ih h
      refine ⟨f :: front,n,rs,r,rs',later,m',rfl,?_,hr⟩
      rw [List.flatMap_cons,List.append_assoc,feed_append,hf]
      exact hm'

theorem Laid.split {d : Dir} {files : List (Nat × List Record)} {seq : Nat} {last : List Record} {t : Bytes}
    (h : Laid d files seq last t) {front later : List (Nat × List Record)} {n : Nat} {rs : List Record}
    (heq : files ++ [(seq,last)] = front ++ (n,rs) :: later) :
    ∃ u back, d.segs = front.map (fun f => (f.1,bytes f.2)) ++ (n,bytes rs ++ u) :: back ∧
      ∀ {rs' : List Record} {j : Nat} {d' : Dir}, rs' <+: rs →
        d'.segs = front.map (fun f => (f.1,bytes f.2)) ++ (n,bytes rs') :: back.drop j →
        (∃ recs, Holding d' recs) ∧ (back.length ≤ j → Laid d' front n rs' []) := by
  have hlaid : ∀ {files' : List (Nat × List Record)} {seq' : Nat} {last' : List Record} {t' : Bytes} {d' : Dir},
      d'.segs = files'.map (fun f => (f.1,bytes f.2)) ++ [(seq',bytes last' ++ t')] → Stub frame Fits t' →
      (files'.map (·.1) ++ [seq']).Sublist (files.map (·.1) ++ [seq]) →
      (∀ r ∈ files'.flatMap (·.2) ++ last', r ∈ files.flatMap (·.2) ++ last) → Laid d' files' seq' last' t' :=
    fun hsegs ht hsub hrecs => ⟨hsegs,h.asc.sublist hsub,ht,fun r hr => h.fits r (hrecs r hr)⟩
  rcases List.eq_nil_or_concat later with rfl | ⟨later,x,rfl⟩
  · -- The last segment.
    obtain ⟨rfl,hx⟩ := List.append_inj' heq rfl
    obtain ⟨rfl,rfl⟩ := Prod.mk.inj (List.singleton_inj.mp hx)
    refine ⟨t,[],h.segs,fun hrs hd' => ?_⟩
    rw [List.drop_nil] at hd'
    have hl : Laid _ _ _ _ [] := hlaid (by rw [hd',List.append_nil]) .nil (List.Sublist.refl _) (by
      intro r hr
      exact (List.mem_append.mp hr).elim (List.mem_append_left _) fun hr => List.mem_append_right _ (hrs.subset hr))
    exact ⟨⟨_,_,_,_,_,hl,rfl⟩,fun _ => hl⟩
  rw [List.concat_eq_append,← List.cons_append,← List.append_assoc] at heq
  obtain ⟨rfl,hx⟩ := List.append_inj' heq rfl
  obtain rfl := List.singleton_inj.mp hx
  refine ⟨[],later.map (fun f => (f.1,bytes f.2)) ++ [(seq,bytes last ++ t)],by rw [h.segs]; simp,fun {rs' j d'} hrs hd' => ?_⟩
  have hmem : ∀ {k : Nat}, ∀ r ∈ (front ++ (n,rs') :: later.drop k).flatMap (·.2) ++ last,
      r ∈ (front ++ (n,rs) :: later).flatMap (·.2) ++ last := by
    intro k r hr
    simp only [List.flatMap_append,List.flatMap_cons,List.mem_append,List.mem_flatMap] at hr ⊢
    rcases hr with (hr | hr | ⟨f,hf,hr⟩) | hr
    · exact .inl (.inl hr)
    · exact .inl (.inr (.inl (hrs.subset hr)))
    · exact .inl (.inr (.inr ⟨f,List.mem_of_mem_drop hf,hr⟩))
    · exact .inr hr
  by_cases hj : j ≤ later.length
  · refine ⟨⟨_,front ++ (n,rs') :: later.drop j,seq,last,t,hlaid ?_ h.stub ?_ hmem,rfl⟩,fun hle => ?_⟩
    · rw [hd',List.drop_append_of_le_length (by simpa using hj),← List.map_drop]
      simp
    · simp only [List.map_append,List.map_cons]
      exact ((List.Sublist.refl _).append ((((List.drop_sublist j later).map _).cons_cons n))).append (List.Sublist.refl _)
    · simp only [List.length_append,List.length_map,List.length_singleton] at hle
      omega
  rw [List.drop_eq_nil_of_le (by simp; omega)] at hd'
  have hl : Laid d' front n rs' [] := hlaid (by rw [hd',List.append_nil]) .nil (by simp) (by
    intro r hr
    refine hmem (k := later.length) r (List.mem_append_left _ ?_)
    simpa using hr)
  exact ⟨⟨_,_,_,_,_,hl,rfl⟩,fun _ => hl⟩

theorem Cut.of_removals {gone : List Nat} : ∀ {d d' : Dir}, Cut (gone.map FileOp.remove) d d' →
    ∃ j, d' = ((gone.take j).map FileOp.remove).foldl Dir.perform d := by
  induction gone with
  | nil =>
    intro d d' h
    cases h with
    | now => exact ⟨0,rfl⟩
  | cons n gone ih =>
    intro d d' h
    cases h with
    | now => exact ⟨0,rfl⟩
    | next h =>
      obtain ⟨j,rfl⟩ := ih h
      exact ⟨j + 1,rfl⟩

theorem filter_removed {front gone back : List (Nat × Bytes)} (hn : ((front ++ (gone ++ back)).map (·.1)).Nodup) :
    (front ++ (gone ++ back)).filter (·.1 ∉ gone.map (·.1)) = front ++ back := by
  simp only [List.map_append,List.nodup_append,List.mem_append] at hn
  obtain ⟨-,⟨-,-,hback⟩,hfront⟩ := hn
  have hgone : gone.filter (·.1 ∉ gone.map (·.1)) = [] := by
    rw [List.filter_eq_nil_iff]
    intro f hf
    simpa using ⟨f.2,hf⟩
  rw [List.filter_append,List.filter_append,hgone,List.nil_append]
  congr 1 <;> rw [List.filter_eq_self] <;> intro f hf <;> refine decide_eq_true fun hmem => ?_
  · exact hfront _ (List.mem_map_of_mem hf) _ (.inl hmem) rfl
  · exact hback _ hmem _ (List.mem_map_of_mem hf) rfl

theorem openDir_of_loadDir {d d' : Dir} {o : List FileOp} (h : loadDir d = { loadDir d' with ops := o ++ (loadDir d').ops })
    (maxSegmentSize : Nat) :
    openDir maxSegmentSize d = { openDir maxSegmentSize d' with ops := o ++ (openDir maxSegmentSize d').ops } := by
  have hmarker : ∀ s : Storage, ({ s with ops := o ++ s.ops } : Storage).writeMarker maxSegmentSize =
      { s.writeMarker maxSegmentSize with ops := o ++ (s.writeMarker maxSegmentSize).ops } := by
    intro s
    simp only [Storage.writeMarker,Storage.syncBuffered]
    split_ifs <;> simp [Storage.perform,Storage.rotateSegment]
  simp only [openDir,h]
  split_ifs
  · exact hmarker { loadDir d' with mirror := { (loadDir d').mirror with entries := [] } }
  · rfl

private theorem perform_cut {d : Dir} {front back : List (Nat × Bytes)} {n : Nat} {bs : Bytes}
    (hsegs : d.segs = front ++ (n,bs) :: back) (hnodup : (d.segs.map (·.1)).Nodup) (k j : Nat) :
    (((back.map (·.1)).take j).map FileOp.remove).foldl Dir.perform (d.perform (.truncate n k)) =
      { d with segs := front ++ (n,bs.take k) :: back.drop j } := by
  rw [hsegs] at hnodup
  have hmid : n ∉ front.map (·.1) ∧ n ∉ back.map (·.1) := by
    rw [List.map_append,List.map_cons,List.nodup_append,List.nodup_cons] at hnodup
    exact ⟨fun hmem => hnodup.2.2 n hmem n (by simp) rfl,hnodup.2.1.1⟩
  have hedit : d.perform (.truncate n k) = { d with segs := front ++ (n,bs.take k) :: back } :=
    edit_one hsegs hmid.1 hmid.2 _
  have hn : (((front ++ [(n,bs.take k)]) ++ (back.take j ++ back.drop j)).map (·.1)).Nodup := by
    rw [List.take_append_drop]
    simpa using hnodup
  have hleft := filter_removed hn
  rw [List.take_append_drop,List.append_assoc,List.append_assoc,List.map_take] at hleft
  rw [foldl_remove,hedit]
  exact congrArg (fun segs => { d with segs := segs }) hleft

/-- Replay that meets a gap cuts the file there and removes the later ones. -/
private theorem loadDir_gap {d : Dir} {front : List (Nat × List Record)} {back : List (Nat × Bytes)} {n : Nat}
    {rs rs' : List Record} {r : Record} {u : Bytes} {m : Mirror} (hasc : (d.segs.map (·.1)).Pairwise (· < ·))
    (hsegs : d.segs = front.map (fun f => (f.1,bytes f.2)) ++ (n,bytes (rs ++ r :: rs') ++ u) :: back)
    (hfits : ∀ r' ∈ front.flatMap (·.2) ++ (rs ++ r :: rs'), r'.Fits)
    (hm : feed Mirror.redo (loadLatestSnapshot d {}) (front.flatMap (·.2) ++ rs) = some m) (hr : m.redo r = none) :
    loadDir d =
      { dir := { d with segs := front.map (fun f => (f.1,bytes f.2)) ++ [(n,bytes rs)] }
        mirror := m
        segSize := (bytes rs).length
        segSeq := n
        ops := .truncate n (bytes rs).length :: (back.map (·.1)).map .remove } := by
  have hread : ∀ f ∈ front, readFile d.segs f.1 = bytes f.2 := fun f hf =>
    readFile_of_mem hasc (f := (f.1,bytes f.2)) (by rw [hsegs]; exact List.mem_append_left _ (List.mem_map_of_mem hf))
  have hbad : readFile d.segs n = bytes (rs ++ r :: rs') ++ u :=
    readFile_of_mem hasc (f := (n,_)) (by rw [hsegs]; simp)
  have hnames : listing d.segs = front.map (·.1) ++ n :: back.map (·.1) := by
    rw [listing_eq hasc,hsegs]
    simp
  have hloop : Storage.replaySegments { dir := d, mirror := loadLatestSnapshot d {} } (front.map (·.1) ++ n :: back.map (·.1)) =
      _ := replaySegments_gap hr hread hbad hfits hm
  have hcut : ((back.map (·.1)).map FileOp.remove).foldl Dir.perform (d.perform (.truncate n (bytes rs).length)) =
      { d with segs := front.map (fun f => (f.1,bytes f.2)) ++ [(n,bytes rs)] } := by
    have hcut := perform_cut hsegs (hasc.imp Nat.ne_of_lt) (bytes rs).length back.length
    rw [List.take_of_length_le (by simp)] at hcut
    simpa using hcut
  have hasc' : ((front.map (fun f => (f.1,bytes f.2)) ++ [(n,bytes rs)]).map (·.1)).Pairwise (· < ·) := by
    rw [hsegs] at hasc
    refine hasc.sublist ?_
    simp only [List.map_append,List.map_cons,List.map_nil]
    exact (List.singleton_sublist.mpr List.mem_cons_self).append_left _
  have hfile := readFile_of_mem hasc' (f := (n,bytes rs)) (by simp)
  simp only [loadDir,hnames,hloop,Storage.openActiveSegment,List.getLast?_concat,Storage.removeSegments_eq,
    Storage.perform,hcut]
  simp [hfile]

theorem Holding.reload {d : Dir} {recs : List Record} (h : Holding d recs) {snap : Snapshot} {flag : Bool}
    (hn : Newest d snap flag) (hnumber : U64 snap.metadata.index ∧ U64 snap.metadata.term) :
    ∃ d₁ recs' es o, Readable d₁ snap flag recs' es ∧ d₁ = o.foldl Dir.perform d ∧
      (∀ maxSegmentSize,
        openDir maxSegmentSize d = { openDir maxSegmentSize d₁ with ops := o ++ (openDir maxSegmentSize d₁).ops }) ∧
      ∀ d', Cut o d d' → d'.snaps = d.snaps ∧ ∃ recs'', Holding d' recs'' := by
  obtain ⟨files,seq,last,t,hl,rfl⟩ := id h
  cases hlog : logOf snap.metadata.index (files.flatMap (·.2) ++ last) with
  | some es =>
    refine ⟨d,_,es,[],⟨h,hn,hnumber,hlog⟩,rfl,fun _ => rfl,fun d' hd' => ?_⟩
    cases hd' with
    | now => exact ⟨rfl,_,h⟩
  | none =>
    have hgap : feed Mirror.redo (loadLatestSnapshot d {}) ((files ++ [(seq,last)]).flatMap (·.2)) = none := by
      rw [hn.load,Mirror.feed_redo,Option.map_eq_none_iff,List.flatMap_append,List.flatMap_singleton]
      exact hlog
    obtain ⟨front,n,rs,r,rs',later,m,heq,hm,hr⟩ := gap_split hgap
    obtain ⟨u,back,hsegs,hcut⟩ := hl.split heq
    have hasc : (d.segs.map (·.1)).Pairwise (· < ·) := hl.names ▸ hl.asc
    have hfits : ∀ r' ∈ front.flatMap (·.2) ++ (rs ++ r :: rs'), r'.Fits := by
      intro r' hr'
      have hall : r' ∈ (files ++ [(seq,last)]).flatMap (·.2) := by
        rw [heq]
        simp only [List.flatMap_append,List.flatMap_cons,List.mem_append] at hr' ⊢
        exact hr'.elim .inl fun hr' => .inr (.inl hr')
      exact hl.fits r' (by simpa using hall)
    -- The directory after the cut and the first `j` removals.
    have hdir : ∀ j, (((back.map (·.1)).take j).map FileOp.remove).foldl Dir.perform
        (d.perform (.truncate n (bytes rs).length)) =
          { d with segs := front.map (fun f => (f.1,bytes f.2)) ++ (n,bytes rs) :: back.drop j } := by
      intro j
      have := perform_cut hsegs (hasc.imp Nat.ne_of_lt) (bytes rs).length j
      rwa [bytes_append,List.append_assoc,List.take_left] at this
    let d₁ : Dir := { d with segs := front.map (fun f => (f.1,bytes f.2)) ++ [(n,bytes rs)] }
    let o : List FileOp := .truncate n (bytes rs).length :: (back.map (·.1)).map .remove
    have hd₁ : d₁ = o.foldl Dir.perform d := by
      have := hdir back.length
      rw [List.take_of_length_le (by simp),List.drop_length] at this
      exact this.symm
    have hlaid : Laid d₁ front n rs [] := (hcut (j := back.length) (List.prefix_append rs (r :: rs'))
      (by rw [List.drop_length])).2 le_rfl
    have hload := loadDir_gap hasc hsegs hfits hm hr
    obtain ⟨es,hes,rfl⟩ : ∃ es, logOf snap.metadata.index (front.flatMap (·.2) ++ rs) = some es ∧
        Readable.replayed snap flag (front.flatMap (·.2) ++ rs) es = m := by
      rw [hn.load,Mirror.feed_redo,Option.map_eq_some_iff] at hm
      exact hm
    have hnew : Newest d₁ snap flag := hn.snaps_eq rfl
    have hsame : loadDir d = { loadDir d₁ with ops := o ++ (loadDir d₁).ops } := by
      rw [hload,Readable.loadDir_laid hlaid hnew.load hes]
      simp [d₁,o]
    refine ⟨d₁,_,es,o,⟨⟨front,n,rs,[],hlaid,rfl⟩,hnew,hnumber,hes⟩,hd₁,openDir_of_loadDir hsame,
      fun d' (hd' : Cut (.truncate n (bytes rs).length :: (back.map (·.1)).map .remove) d d') => ?_⟩
    cases hd' with
    | now => exact ⟨rfl,_,h⟩
    | next hd' =>
      obtain ⟨j,rfl⟩ := hd'.of_removals
      rw [hdir j]
      exact ⟨rfl,(hcut (List.prefix_append rs (r :: rs')) rfl).1⟩

end Parallax.Disk
