import Parallax.Disk.Recovery

/-! Snapshot files: what a file that was written reads back as, and which one `Open` loads. -/
namespace Parallax.Disk
open BigEndian

/-- Its numbers are 64-bit words and its file is within the payload bound. -/
def SnapFits (snap : Snapshot) : Prop :=
  U64 snap.metadata.index ∧ U64 snap.metadata.term ∧ 21 + snap.data.length ≤ sanityMaxPayload

private theorem length_snapPayload (snap : Snapshot) (f : Bool) : (snapPayload snap f).length = 21 + snap.data.length := by
  simp [snapPayload]
  omega

private theorem parseSnapPayload_snapPayload {snap : Snapshot} (h : SnapFits snap) (f : Bool) :
    parseSnapPayload (snapPayload snap f) = some (snap,f) := by
  obtain ⟨hi,ht,hd⟩ := h
  have hp : snapPayload snap f = put 8 snap.metadata.index ++ (put 8 snap.metadata.term ++
      (put 4 snap.data.length ++ (snap.data ++ [if f then snapshotFlagTruncateSuffix else 0]))) := by
    simp [snapPayload]
  have h8 : (snapPayload snap f).drop 8 = put 8 snap.metadata.term ++
      (put 4 snap.data.length ++ (snap.data ++ [if f then snapshotFlagTruncateSuffix else 0])) := by
    rw [hp,List.drop_left' (length_put _ _)]
  have h16 : (snapPayload snap f).drop 16 =
      put 4 snap.data.length ++ (snap.data ++ [if f then snapshotFlagTruncateSuffix else 0]) := by
    rw [show 16 = 8 + 8 by rfl,← List.drop_drop,h8,List.drop_left' (length_put _ _)]
  have h20 : (snapPayload snap f).drop 20 = snap.data ++ [if f then snapshotFlagTruncateSuffix else 0] := by
    rw [show 20 = 16 + 4 by rfl,← List.drop_drop,h16,List.drop_left' (length_put _ _)]
  have hflag : (snapPayload snap f).getD (20 + snap.data.length) 0 = if f then snapshotFlagTruncateSuffix else 0 := by
    rw [List.getD_eq_getElem?_getD,← List.head?_drop,← List.drop_drop,h20,List.drop_left]
    rfl
  have hlen : get (put 4 snap.data.length) = snap.data.length :=
    get_put_u32 (by unfold sanityMaxPayload at hd; omega)
  unfold parseSnapPayload
  rw [length_snapPayload,if_neg (by omega)]
  simp only [h16,h20,h8,List.take_left' (length_put _ _),hlen,hflag,List.take_left]
  rw [if_neg (by omega),if_pos (by omega),hp,List.take_left' (length_put _ _),get_put_u64 hi,get_put_u64 ht]
  cases f <;> rfl

private theorem readSnapshotFile_appendFrame {snap : Snapshot} (h : SnapFits snap) (f : Bool) :
    readSnapshotFile (appendFrame [] (snapPayload snap f)) = some (snap,f) := by
  have hfits : Fits (snapPayload snap f) := ⟨by rw [length_snapPayload]; omega,by rw [length_snapPayload]; exact h.2.2⟩
  have := readFrame_whole hfits [] []
  simp only [List.nil_append,List.append_nil,List.length_nil] at this
  simp only [readSnapshotFile,appendFrame,List.nil_append,this,Option.bind_some]
  exact parseSnapPayload_snapPayload h f

theorem readFrame_some {p q : Bytes} {n : Nat} (h : readFrame (frame p) 0 = some (q,n)) :
    q = p.take (p.length % 2 ^ 32) ∧ p.length % 2 ^ 32 ≤ sanityMaxPayload := by
  have h4 : (frame p).take 4 = put 4 p.length := by
    rw [frame,List.append_assoc,List.take_left' (length_put _ _)]
  have h8 : (frame p).drop frameHeaderSize = p := by
    rw [frame,frameHeaderSize,List.drop_left' (by simp)]
  have hlen : get (put 4 p.length) = p.length % 2 ^ 32 := by
    rw [get_put_mod]
    norm_num
  unfold readFrame at h
  simp only [List.drop_zero,h4,hlen,Nat.zero_add,h8] at h
  split at h
  · cases h
  split at h
  · cases h
  split at h
  · cases h
  split at h
  · cases h
  rename_i hbound _ _
  simp only [Option.some.injEq,Prod.mk.injEq] at h
  exact ⟨h.1.symm,by omega⟩

theorem parseSnapPayload_some {q : Bytes} {snap : Snapshot} {f : Bool} (h : parseSnapPayload q = some (snap,f)) :
    20 ≤ q.length ∧ snap.metadata = { index := get (q.take 8), term := get ((q.drop 8).take 8) } ∧
      20 + snap.data.length ≤ q.length := by
  have hdata : 20 ≤ q.length → ∀ n, 20 + ((q.drop 20).take n).length ≤ q.length := by
    intro hlen n
    rw [List.length_take,List.length_drop]
    omega
  simp only [parseSnapPayload] at h
  split at h
  · cases h
  rename_i hlen
  split at h
  · cases h
  split at h
  · split at h
    · cases h
    · cases h
      exact ⟨by omega,rfl,hdata (by omega) _⟩
  · cases h
    exact ⟨by omega,rfl,hdata (by omega) _⟩

theorem readSnapshotFile_big {snap snap' : Snapshot} {f f' : Bool}
    (hnumber : U64 snap.metadata.index ∧ U64 snap.metadata.term) (hbig : sanityMaxPayload < 21 + snap.data.length)
    (h : readSnapshotFile (appendFrame [] (snapPayload snap f)) = some (snap',f')) :
    snap'.metadata = snap.metadata ∧ snap' ≠ snap := by
  rw [readSnapshotFile,appendFrame,List.nil_append,Option.bind_eq_some_iff] at h
  obtain ⟨⟨q,n⟩,hq,hparse⟩ := h
  obtain ⟨rfl,hbound⟩ := readFrame_some hq
  obtain ⟨hlen,hmd,hdata⟩ := parseSnapPayload_some hparse
  rw [List.length_take,length_snapPayload] at hlen hdata
  rw [length_snapPayload] at hbound hmd
  unfold sanityMaxPayload at hbound hbig
  -- The length was not rejected, so it wrapped around.
  have hwrap : 2 ^ 32 ≤ 21 + snap.data.length := by
    by_contra hlt
    rw [Nat.mod_eq_of_lt (by omega)] at hbound
    omega
  have hp : snapPayload snap f = put 8 snap.metadata.index ++ (put 8 snap.metadata.term ++
      (put 4 snap.data.length ++ (snap.data ++ [if f then snapshotFlagTruncateSuffix else 0]))) := by
    simp [snapPayload]
  constructor
  · rw [hmd,List.take_take,Nat.min_eq_left (by omega),List.drop_take,List.take_take,Nat.min_eq_left (by omega),hp,
      List.take_left' (length_put _ _),List.drop_left' (length_put _ _),List.take_left' (length_put _ _),
      get_put_u64 hnumber.1,get_put_u64 hnumber.2]
  · rintro rfl
    omega

/-- Snapshot files are named by the index that they hold. -/
structure Dir.Named (d : Dir) : Prop where
  nodup : (d.snaps.map (·.1)).Nodup
  index : ∀ f ∈ d.snaps, ∀ snap flag, readSnapshotFile f.2 = some (snap,flag) → snap.metadata.index = f.1

/-- No snapshot file above `i` can be read. -/
def Dir.Topped (d : Dir) (i : Nat) : Prop := ∀ f ∈ d.snaps, (readSnapshotFile f.2).isSome → f.1 ≤ i

theorem Dir.Named.snaps_eq {d d' : Dir} (h : d.Named) (hd : d'.snaps = d.snaps) : d'.Named :=
  ⟨by rw [hd]; exact h.nodup,by rw [hd]; exact h.index⟩

theorem Dir.Topped.snaps_eq {d d' : Dir} {i : Nat} (h : d.Topped i) (hd : d'.snaps = d.snaps) : d'.Topped i := by
  unfold Dir.Topped
  rw [hd]
  exact h

theorem Dir.Topped.install {d : Dir} {i n : Nat} (h : d.Topped i) (hlt : i < n) (bs : Bytes) :
    (d.perform (.install n bs)).Topped n := by
  intro f hf hsome
  rcases List.mem_append.mp hf with hf | hf
  · exact Nat.le_of_lt (Nat.lt_of_le_of_lt (h f (List.mem_of_mem_filter hf) hsome) hlt)
  · rw [List.mem_singleton.mp hf]

theorem Dir.Named.load_cases {d : Dir} (h : d.Named) :
    (∃ f ∈ d.snaps, ∃ snap flag, readSnapshotFile f.2 = some (snap,flag) ∧ d.Topped f.1 ∧
      loadLatestSnapshot d {} = { snapshot := snap, snapshotTruncationPending := flag }) ∨
    ((∀ f ∈ d.snaps, readSnapshotFile f.2 = none) ∧ loadLatestSnapshot d {} = {}) := by
  have hmem : ∀ f ∈ d.snaps, f.1 ∈ (listing d.snaps).reverse := fun f hf =>
    List.mem_reverse.mpr ((List.perm_insertionSort ..).mem_iff.mpr (List.mem_map_of_mem hf))
  have hread : ∀ f ∈ d.snaps, readFile d.snaps f.1 = f.2 := fun f hf => readFile_of_nodup h.nodup hf
  unfold loadLatestSnapshot
  cases hfound : (listing d.snaps).reverse.findSome? fun n => readSnapshotFile (readFile d.snaps n) with
  | none =>
    refine .inr ⟨fun f hf => ?_,rfl⟩
    have := List.findSome?_eq_none_iff.mp hfound f.1 (hmem f hf)
    rwa [hread f hf] at this
  | some found =>
    obtain ⟨snap,flag⟩ := found
    obtain ⟨above,n,below,hsplit,hn,habove⟩ := List.findSome?_eq_some_iff.mp hfound
    -- The names above `n` were tried first and could not be read.
    obtain ⟨f,hf,rfl⟩ : ∃ f ∈ d.snaps, f.1 = n := by
      have hin : n ∈ (listing d.snaps).reverse := by
        rw [hsplit]
        simp
      exact List.mem_map.mp ((List.perm_insertionSort ..).mem_iff.mp (List.mem_reverse.mp hin))
    rw [hread f hf] at hn
    refine .inl ⟨f,hf,snap,flag,hn,fun g hg hsome => ?_,rfl⟩
    have hsorted : ((listing d.snaps).reverse).Pairwise (· ≥ ·) :=
      List.pairwise_reverse.mpr (List.pairwise_insertionSort (· ≤ ·) _)
    have hin := hmem g hg
    rw [hsplit] at hsorted hin
    rcases List.mem_append.mp hin with hin | hin
    · have := habove g.1 hin
      rw [hread g hg] at this
      rw [this] at hsome
      cases hsome
    rcases List.mem_cons.mp hin with heq | hin
    · exact Nat.le_of_eq heq
    · exact (List.pairwise_cons.mp (List.pairwise_append.mp hsorted).2.1).1 g.1 hin

theorem readSnapshotFile_index {snap snap' : Snapshot} {f f' : Bool}
    (hnumber : U64 snap.metadata.index ∧ U64 snap.metadata.term)
    (h : readSnapshotFile (appendFrame [] (snapPayload snap f)) = some (snap',f')) :
    snap'.metadata.index = snap.metadata.index := by
  by_cases hfits : 21 + snap.data.length ≤ sanityMaxPayload
  · rw [readSnapshotFile_appendFrame ⟨hnumber.1,hnumber.2,hfits⟩] at h
    simp only [Option.some.injEq,Prod.mk.injEq] at h
    rw [h.1]
  · rw [(readSnapshotFile_big hnumber (Nat.lt_of_not_le hfits) h).1]

theorem readSnapshotFile_over {snap : Snapshot} {f : Bool} (hbig : sanityMaxPayload < 21 + snap.data.length)
    (hword : 21 + snap.data.length < 2 ^ 32) : readSnapshotFile (appendFrame [] (snapPayload snap f)) = none := by
  rw [readSnapshotFile,appendFrame,List.nil_append,Option.bind_eq_none_iff]
  intro found hq
  have hbound := (readFrame_some hq).2
  rw [length_snapPayload,Nat.mod_eq_of_lt (by omega)] at hbound
  omega

namespace Dir.Named
variable {d : Dir} {snap : Snapshot} {flag : Bool}

theorem install (h : d.Named) (hnumber : U64 snap.metadata.index ∧ U64 snap.metadata.term) (flag : Bool) :
    (d.perform (.install snap.metadata.index (appendFrame [] (snapPayload snap flag)))).Named := by
  have hold : ∀ f, f ∈ d.snaps.filter (·.1 ≠ snap.metadata.index) → f ∈ d.snaps ∧ f.1 ≠ snap.metadata.index := by
    intro f hf
    rw [List.mem_filter] at hf
    exact ⟨hf.1,by simpa using hf.2⟩
  constructor
  · simp only [Dir.perform,List.map_append,List.map_cons,List.map_nil]
    rw [List.nodup_append]
    refine ⟨h.nodup.sublist (List.filter_sublist.map _),by simp,?_⟩
    intro n hn m hm
    obtain ⟨f,hf,rfl⟩ := List.mem_map.mp hn
    rw [List.mem_singleton.mp hm]
    exact (hold f hf).2
  intro f hf snap' flag' hread
  rcases List.mem_append.mp hf with hf | hf
  · exact h.index f (hold f hf).1 snap' flag' hread
  · obtain rfl := List.mem_singleton.mp hf
    exact readSnapshotFile_index hnumber hread

theorem install_file (h : d.Named) (hnumber : U64 snap.metadata.index ∧ U64 snap.metadata.term) {f : Nat × Bytes}
    (hf : f ∈ (d.perform (.install snap.metadata.index (appendFrame [] (snapPayload snap flag)))).snaps)
    (hname : f.1 = snap.metadata.index) : f.2 = appendFrame [] (snapPayload snap flag) := by
  have hnew := h.install hnumber flag
  rw [← readFile_of_nodup hnew.nodup hf,hname]
  exact readFile_of_nodup hnew.nodup (f := (snap.metadata.index,_)) (List.mem_append_right _ (List.mem_singleton_self _))

theorem load_eq (h : d.Named) {f : Nat × Bytes} (hf : f ∈ d.snaps) (hread : readSnapshotFile f.2 = some (snap,flag))
    (htop : d.Topped f.1) : loadLatestSnapshot d {} = { snapshot := snap, snapshotTruncationPending := flag } := by
  rcases h.load_cases with ⟨g,hg,snap',flag',hread',htop',heq⟩ | ⟨hnone,-⟩
  · have hname : g.1 = f.1 := Nat.le_antisymm (htop g hg (by rw [hread']; rfl)) (htop' f hf (by rw [hread]; rfl))
    rw [← readFile_of_nodup h.nodup hg,hname,readFile_of_nodup h.nodup hf,hread] at hread'
    obtain ⟨rfl,rfl⟩ := Prod.mk.inj (Option.some.inj hread')
    exact heq
  · rw [hnone f hf] at hread
    cases hread

end Dir.Named

/-- `snap` is what `Open` loads of the snapshot files of `d`, with the flag of its file. -/
structure Newest (d : Dir) (snap : Snapshot) (flag : Bool) : Prop where
  named : d.Named
  load : loadLatestSnapshot d {} = { snapshot := snap, snapshotTruncationPending := flag }

namespace Newest
variable {d : Dir} {snap : Snapshot} {flag : Bool}

theorem snaps_eq (h : Newest d snap flag) {d' : Dir} (hd : d'.snaps = d.snaps) : Newest d' snap flag :=
  ⟨h.named.snaps_eq hd,by rw [← h.load,loadLatestSnapshot,hd,loadLatestSnapshot]⟩

/-- No files. -/
theorem of_nil {d : Dir} (hd : d.snaps = []) : Newest d {} false :=
  ⟨⟨by simp [hd],by simp [hd]⟩,by simp [loadLatestSnapshot,listing,hd]⟩

theorem topped (h : Newest d snap flag) : d.Topped snap.metadata.index := by
  rcases h.named.load_cases with ⟨f,hf,snap',flag',hread,htop,heq⟩ | ⟨hnone,-⟩
  · obtain rfl : snap' = snap := congrArg (·.snapshot) (heq.symm.trans h.load)
    rw [h.named.index f hf _ _ hread]
    exact htop
  intro f hf hsome
  rw [hnone f hf] at hsome
  cases hsome

end Newest

private theorem readSnapshotFile_words {bs : Bytes} {snap : Snapshot} {f : Bool} (h : readSnapshotFile bs = some (snap,f)) :
    U64 snap.metadata.index ∧ U64 snap.metadata.term := by
  obtain ⟨⟨q,n⟩,-,hparse⟩ := Option.bind_eq_some_iff.mp h
  have hword : ∀ bs : Bytes, get (bs.take 8) < 2 ^ 64 := by
    intro bs
    have hlen : (bs.take 8).length ≤ 8 := List.length_take_le ..
    calc get (bs.take 8) < 256 ^ (bs.take 8).length := get_lt _
      _ ≤ 256 ^ 8 := Nat.pow_le_pow_right (by decide) hlen
      _ = 2 ^ 64 := by norm_num
  rw [(parseSnapPayload_some hparse).2.1]
  exact ⟨hword _,hword _⟩

/-- Some snapshot is loaded, if only the empty one. -/
theorem Dir.Named.newest {d : Dir} (h : d.Named) :
    ∃ snap flag, Newest d snap flag ∧ U64 snap.metadata.index ∧ U64 snap.metadata.term := by
  rcases h.load_cases with ⟨f,-,snap,flag,hread,-,heq⟩ | ⟨-,heq⟩
  · exact ⟨snap,flag,⟨h,heq⟩,readSnapshotFile_words hread⟩
  · exact ⟨{},false,⟨h,heq⟩,by decide,by decide⟩

namespace Dir.Named
variable {d : Dir} {snap : Snapshot} {flag : Bool}

theorem install_newest (h : d.Named) {i : Nat} (htop : d.Topped i) (hi : i < snap.metadata.index)
    (hnumber : U64 snap.metadata.index ∧ U64 snap.metadata.term) {snap' : Snapshot} {flag' : Bool}
    (hread : readSnapshotFile (appendFrame [] (snapPayload snap flag)) = some (snap',flag')) :
    Newest (d.perform (.install snap.metadata.index (appendFrame [] (snapPayload snap flag)))) snap' flag' := by
  exact ⟨h.install hnumber flag,(h.install hnumber flag).load_eq (f := (snap.metadata.index,_))
    (List.mem_append_right _ (List.mem_singleton_self _)) hread (htop.install hi _)⟩

theorem load_install_iff (h : d.Named) {i : Nat} (htop : d.Topped i) (hi : i < snap.metadata.index)
    (hnumber : U64 snap.metadata.index ∧ U64 snap.metadata.term) (flag : Bool) :
    loadLatestSnapshot (d.perform (.install snap.metadata.index (appendFrame [] (snapPayload snap flag)))) {} =
      { snapshot := snap, snapshotTruncationPending := flag } ↔ 21 + snap.data.length ≤ sanityMaxPayload := by
  constructor
  · intro hload
    by_contra hbig
    have hnew := h.install hnumber flag
    rcases hnew.load_cases with ⟨f,hf,snap',flag',hread,-,heq⟩ | ⟨-,heq⟩
    · rw [heq] at hload
      obtain rfl : snap' = snap := congrArg (·.snapshot) hload
      rw [h.install_file hnumber hf (hnew.index f hf _ _ hread).symm] at hread
      exact (readSnapshotFile_big hnumber (Nat.lt_of_not_le hbig) hread).2 rfl
    rw [heq] at hload
    have : 0 = snap.metadata.index := congrArg (·.snapshot.metadata.index) hload
    omega
  · intro hfits
    exact (h.install_newest htop hi hnumber (readSnapshotFile_appendFrame ⟨hnumber.1,hnumber.2,hfits⟩ flag)).load

end Dir.Named

namespace Newest
variable {d : Dir} {snap snap' : Snapshot} {flag f : Bool}

theorem install (h : Newest d snap flag) (hfits : SnapFits snap') (hlt : snap.metadata.index < snap'.metadata.index)
    (f : Bool) : Newest (d.perform (.install snap'.metadata.index (appendFrame [] (snapPayload snap' f)))) snap' f :=
  h.named.install_newest h.topped hlt ⟨hfits.1,hfits.2.1⟩ (readSnapshotFile_appendFrame hfits f)

/-- An unreadable file above the snapshot in use changes nothing. -/
theorem install_unreadable (h : Newest d snap flag) (hnumber : U64 snap'.metadata.index ∧ U64 snap'.metadata.term)
    (hlt : snap.metadata.index < snap'.metadata.index) (hbad : readSnapshotFile (appendFrame [] (snapPayload snap' f)) = none) :
    Newest (d.perform (.install snap'.metadata.index (appendFrame [] (snapPayload snap' f)))) snap flag := by
  have hnew := h.named.install hnumber f
  -- The files that read back are the old ones.
  have hold : ∀ g ∈ (d.perform (.install snap'.metadata.index (appendFrame [] (snapPayload snap' f)))).snaps,
      (readSnapshotFile g.2).isSome → g ∈ d.snaps := by
    intro g hg hsome
    rcases List.mem_append.mp hg with hg | hg
    · exact List.mem_of_mem_filter hg
    · rw [List.mem_singleton.mp hg,hbad] at hsome
      cases hsome
  refine ⟨hnew,?_⟩
  rcases h.named.load_cases with ⟨g,hg,snap₀,flag₀,hread,htop,heq⟩ | ⟨hnone,heq⟩
  · rw [← h.load,heq]
    refine hnew.load_eq (f := g) (List.mem_append_left _ (List.mem_filter.mpr ⟨hg,?_⟩)) hread fun k hk hsome => ?_
    · have hle := h.topped g hg (by rw [hread]; rfl)
      simp only [decide_eq_true_eq]
      omega
    · exact htop k (hold k hk hsome) hsome
  rw [← h.load,heq]
  rcases hnew.load_cases with ⟨g,hg,snap₀,flag₀,hread,-,-⟩ | ⟨-,heq'⟩
  · have hsome : (readSnapshotFile g.2).isSome := by rw [hread]; rfl
    rw [hnone g (hold g hg hsome)] at hread
    cases hread
  · exact heq'

end Newest

end Parallax.Disk
