import Parallax.Disk.Live

/-! A crash inside `Open`. The torn segment is cut before the segments behind it are removed, so
the next `Open` no longer sees the tear and goes on with what is left of them. -/
namespace Parallax.Disk
open Scan BigEndian

/-- An entry that the snapshot covers. The replay passes over it. -/
def Record.covered (off : Nat) : Record → Bool
  | .entry e => e.index ≤ off
  | _ => false

/-- An entry that does not follow a log up to `last`. -/
def Record.gaps (last : Nat) : Record → Bool
  | .entry e => last + 1 < e.index
  | _ => false

def passed (off : Nat) (payload : Bytes) : Bool := (Record.parse payload).any (·.covered off)

/-- The first bad frame, and the segments behind it. -/
structure Tear where
  seq : Nat
  off : Nat
  later : List Nat
  deriving DecidableEq, Repr

/-- What the loop over the segments finds: the state, the places of the records that make it up,
and the tear where it stops. -/
structure Replay where
  mirror : Mirror
  places : List (Nat × Nat) := []
  tear : Option Tear := none
  deriving DecidableEq, Repr

def replay (files : List (Nat × Bytes)) (m : Mirror) : List Nat → Replay
  | [] => { mirror := m }
  | seq :: rest =>
    let data := readFile files seq
    let here := ((taken readFrame Mirror.applyRecord data (data.length + 1) 0 m).filter fun f => !passed m.offset f.2).map
      fun f => (seq,f.1)
    match scan readFrame Mirror.applyRecord data (data.length + 1) 0 m with
    | (m,some off) => { mirror := m, places := here, tear := some { seq := seq, off := off, later := rest } }
    | (m,none) =>
      let r := replay files m rest
      { r with places := here ++ r.places }

/-- The file operations that mend a tear. -/
def Replay.mends (r : Replay) : List FileOp :=
  match r.tear with
  | none => []
  | some t => .truncate t.seq t.off :: t.later.map .remove

theorem Storage.replaySegments_replay (s : Storage) (names : List Nat) :
    let r := replay s.dir.segs s.mirror names
    (s.replaySegments names).1 =
      { s with mirror := r.mirror, dir := r.mends.foldl Dir.perform s.dir, ops := s.ops ++ r.mends } := by
  induction names generalizing s with
  | nil => simp [Storage.replaySegments,replay,Replay.mends]
  | cons seq rest ih =>
    simp only [Storage.replaySegments,Storage.replaySegment,replay]
    rcases scan readFrame Mirror.applyRecord (readFile s.dir.segs seq) ((readFile s.dir.segs seq).length + 1) 0 s.mirror
      with ⟨m,_ | off⟩
    · exact ih { s with mirror := m }
    · simp [Storage.removeSegments_eq,Storage.perform,Replay.mends]

/-- The replay of `Open` on `d`. -/
def opening (d : Dir) : Replay := replay d.segs (loadLatestSnapshot d {}) (listing d.segs)

private theorem loadDir_mirror (d : Dir) : (loadDir d).mirror = (opening d).mirror := by
  have h := Storage.replaySegments_replay { dir := d, mirror := loadLatestSnapshot d {} } (listing d.segs)
  unfold loadDir opening
  simp only [Storage.openActiveSegment]
  split <;> simp [h,Storage.rotateSegment,Storage.perform]

theorem openDir_mirror_congr (maxSegmentSize : Nat) {d d' : Dir} (h : (opening d').mirror = (opening d).mirror) :
    (openDir maxSegmentSize d').mirror = (openDir maxSegmentSize d).mirror := by
  have hm : (loadDir d').mirror = (loadDir d).mirror := by rw [loadDir_mirror,loadDir_mirror,h]
  unfold openDir
  dsimp only
  rw [hm]
  split
  · rw [Storage.writeMarker_mirror,Storage.writeMarker_mirror]
  · exact hm

private theorem mem_listing {files : List (Nat × Bytes)} {n : Nat} : n ∈ listing files ↔ n ∈ files.map (·.1) :=
  (List.perm_insertionSort ..).mem_iff

@[simp] theorem listing_edit (d : Dir) (seq : Nat) (f : Bytes → Bytes) : listing (d.edit seq f).segs = listing d.segs := by
  have : (d.edit seq f).segs.map (·.1) = d.segs.map (·.1) := by
    simp only [Dir.edit,List.map_map]
    refine List.map_congr_left fun file _ => ?_
    simp only [Function.comp_apply]
    split <;> rfl
  rw [listing,this,listing]

private theorem readFile_edit (d : Dir) (seq : Nat) {f : Bytes → Bytes} (hf : f [] = []) (n : Nat) :
    readFile (d.edit seq f).segs n = if n = seq then f (readFile d.segs n) else readFile d.segs n := by
  unfold readFile Dir.edit
  induction d.segs with
  | nil => simp [hf]
  | cons file files ih =>
    by_cases hn : file.1 = n
    · subst hn
      by_cases hs : file.1 = seq <;> simp [hs]
    · rw [List.map_cons,List.find?_cons_of_neg (by split <;> simpa using hn),ih,List.find?_cons_of_neg (by simpa using hn)]

private theorem listing_filter (files : List (Nat × Bytes)) (keep : Nat → Bool) :
    listing (files.filter (keep ·.1)) = (listing files).filter keep := by
  refine List.Perm.eq_of_pairwise' (r := (· ≤ ·)) (List.pairwise_insertionSort ..)
    ((List.pairwise_insertionSort ..).filter _) ?_
  refine (List.perm_insertionSort ..).trans ?_
  refine (List.Perm.of_eq (List.filter_map ..).symm).trans ?_
  exact (List.perm_insertionSort ..).symm.filter _

private theorem readFile_filter (files : List (Nat × Bytes)) (keep : Nat → Bool) {n : Nat} (hn : keep n) :
    readFile (files.filter (keep ·.1)) n = readFile files n := by
  unfold readFile
  rw [List.find?_filter]
  congr 3
  funext file
  by_cases h : file.1 = n <;> simp [h,hn]

/-- A crash in `Open` on `d`, with the tear cut off. The cut is synced when it is made, the removals
are not before the directory is, so any of them may be lost. -/
inductive Interrupted (d : Dir) : Dir → Prop where
  | intro {made : List FileOp} (h : made.Sublist (opening d).mends.tail) :
      Interrupted d (((opening d).mends.take 1 ++ made).foldl Dir.perform d)

theorem Interrupted.cut {d : Dir} {t : Tear} (h : (opening d).tear = some t) :
    Interrupted d (d.perform (.truncate t.seq t.off)) := by
  have hd := @Interrupted.intro d [] (List.nil_sublist _)
  rw [Replay.mends,h] at hd
  exact hd

/-- Nothing in segments with the bytes `datas` would be replayed behind a log up to `last` on a
snapshot at `off`: the records that can be read are entries that the snapshot covers, up to the end,
to a frame that cannot be read or to an entry that leaves a gap. -/
def Barren (off last : Nat) : List Bytes → Prop
  | [] => True
  | data :: rest =>
    (∀ r ∈ (segmentRecords data).find? (!·.covered off), r.gaps last) ∧
      ((segmentRecords data).all (·.covered off) ∧ (recordsUpTo data).2 = none → Barren off last rest)

instance decidableBarren (off last : Nat) : (datas : List Bytes) → Decidable (Barren off last datas)
  | [] => inferInstanceAs (Decidable True)
  | _ :: rest =>
    have := decidableBarren off last rest
    inferInstanceAs (Decidable (_ ∧ (_ → _)))

namespace Mirror

private theorem applyRecord_parse : applyRecord = fun m p => (Record.parse p).bind m.redo := by
  funext m p
  exact m.applyRecord_eq p

private theorem redo_covered {m : Mirror} {r : Record} (h : r.covered m.offset) : m.redo r = some m := by
  cases r with
  | entry e =>
    have he : e.index ≤ m.offset := of_decide_eq_true h
    simp only [redo,applyEntryRecord]
    rw [if_pos he]
  | hardState st => cases h
  | truncate md => cases h

private theorem redo_eq_none_iff {m : Mirror} {r : Record} : m.redo r = none ↔ r.gaps (m.offset + m.entries.length) := by
  cases r with
  | entry e =>
    simp only [redo,applyEntryRecord,Record.gaps,decide_eq_true_eq]
    split_ifs <;> simp <;> omega
  | hardState st => simp [redo,Record.gaps]
  | truncate md => simp [redo,Record.gaps]

end Mirror

theorem segment_cases (data : Bytes) (m : Mirror) : ∀ fuel i,
    let rs := (parsed readFrame Record.parse data fuel i).1
    let took := (taken readFrame Mirror.applyRecord data fuel i m).filter fun f => !passed m.offset f.2
    let found := scan readFrame Mirror.applyRecord data fuel i m
    (took = [] ↔ ∀ r ∈ rs.find? (!·.covered m.offset), r.gaps (m.offset + m.entries.length)) ∧
      (took = [] → found.1 = m ∧
        (rs.all (·.covered m.offset) = true → found.2 = (parsed readFrame Record.parse data fuel i).2) ∧
        (rs.all (·.covered m.offset) = false → found.2 ≠ none)) := by
  intro fuel
  induction fuel with
  | zero => intro i; simp [parsed,taken,scan]
  | succ fuel ih =>
    intro i
    rw [parsed,taken,scan]
    by_cases hlt : i < data.length
    · rw [if_pos hlt,if_pos hlt,if_pos hlt]
      cases hr : readFrame data i with
      | none => simp
      | some f =>
        obtain ⟨p,n⟩ := f
        cases hp : Record.parse p with
        | none => simp [Mirror.applyRecord_eq,hp]
        | some r =>
          simp only [Mirror.applyRecord_eq,hp,Option.bind_some]
          cases hc : r.covered m.offset with
          | true =>
            -- The entry is passed over.
            have hpass : passed m.offset p = true := by simp [passed,hp,hc]
            rw [Mirror.redo_covered hc]
            simp only [List.filter_cons,hpass,Bool.not_true,List.find?_cons,hc,List.all_cons,Bool.true_and]
            exact ih (i + n)
          | false =>
            have hpass : passed m.offset p = false := by simp [passed,hp,hc]
            cases hg : m.redo r with
            | none => simpa [hc] using Mirror.redo_eq_none_iff.mp hg
            | some m' =>
              have hgap : r.gaps (m.offset + m.entries.length) = false := by
                rw [← Bool.not_eq_true,← Mirror.redo_eq_none_iff,hg]
                simp
              simp [hpass,hc,hgap]
    · rw [if_neg hlt,if_neg hlt,if_neg hlt]
      simp

theorem replay_places_nil {files : List (Nat × Bytes)} {m : Mirror} {names : List Nat} :
    ((replay files m names).places = [] ↔
      Barren m.offset (m.offset + m.entries.length) (names.map (readFile files))) ∧
    ((replay files m names).places = [] → (replay files m names).mirror = m) := by
  induction names with
  | nil => simp [Barren,replay]
  | cons seq rest ih =>
    obtain ⟨htook,hfound⟩ := segment_cases (readFile files seq) m ((readFile files seq).length + 1) 0
    simp only [List.map_cons,Barren,replay,segmentRecords,recordsUpTo]
    rw [← htook]
    cases hscan : scan readFrame Mirror.applyRecord (readFile files seq) ((readFile files seq).length + 1) 0 m with
    | mk m' stop =>
      rw [hscan] at hfound
      by_cases ht : (taken readFrame Mirror.applyRecord (readFile files seq) ((readFile files seq).length + 1) 0 m).filter
          (fun f => !passed m.offset f.2) = []
      · obtain ⟨hm,hcov,hgap⟩ := hfound ht
        obtain rfl : m' = m := hm
        simp only [ht,List.map_nil,List.nil_append,true_and]
        cases hall : (parsed readFrame Record.parse (readFile files seq) ((readFile files seq).length + 1) 0).1.all
          (·.covered m'.offset) with
        | true =>
          rw [← hcov hall]
          cases stop with
          | none => simpa using ih
          | some off => simp
        | false =>
          cases stop with
          | none => exact absurd rfl (hgap hall)
          | some off => simp
      · cases stop <;> simp [ht]

private theorem replay_tear {files : List (Nat × Bytes)} {m : Mirror} {names : List Nat} {t : Tear}
    (h : (replay files m names).tear = some t) : (t.seq :: t.later).Sublist names := by
  induction names generalizing m with
  | nil => cases h
  | cons seq rest ih =>
    simp only [replay] at h
    split at h
    · cases h
      exact List.Sublist.refl _
    · exact (ih h).cons _

theorem replay_resumed {files files' : List (Nat × Bytes)} {m : Mirror} {names : List Nat} {t : Tear}
    (h : (replay files m names).tear = some t) (hn : names.Nodup) {keep : Nat → Bool}
    (hkeep : ∀ n ∈ names, n ∉ t.later → keep n) (hseq : readFile files' t.seq = (readFile files t.seq).take t.off)
    (hrest : ∀ n ∈ names, n ≠ t.seq → keep n → readFile files' n = readFile files n) :
    let r := replay files' (replay files m names).mirror (t.later.filter keep)
    replay files' m (names.filter keep) = { r with places := (replay files m names).places ++ r.places } := by
  induction names generalizing m with
  | nil => cases h
  | cons seq rest ih =>
    have hk : keep seq := hkeep seq (by simp) fun hl => (List.nodup_cons.mp hn).1 ((replay_tear h).tail.subset hl)
    rw [List.filter_cons_of_pos hk]
    simp only [replay] at h ⊢
    split at h
    · next m' off hs =>
      cases h
      obtain ⟨hscan,htaken⟩ := readFrame_local.scan_take (((readFile files seq).take off).length + 1) hs (by
        rw [List.length_take_of_le (Nat.le_of_lt (scan_stop hs).2.1)]
        omega)
      simp only [hseq,hscan,htaken]
    next m' hs =>
    have hne : seq ≠ t.seq := by
      rintro rfl
      exact (List.nodup_cons.mp hn).1 ((replay_tear h).subset (by simp))
    rw [hrest seq (by simp) hne hk,hs]
    simp only
    rw [ih h (List.nodup_cons.mp hn).2 (fun n hm => hkeep n (by simp [hm])) fun n hm => hrest n (by simp [hm])]
    simp

/-- `Open` on `d'` gives the hard state and entries that it gives on `d`, from the same records. -/
def Reopens (maxSegmentSize : Nat) (d d' : Dir) : Prop :=
  (openDir maxSegmentSize d').mirror.hardState = (openDir maxSegmentSize d).mirror.hardState ∧
    (openDir maxSegmentSize d').mirror.entries = (openDir maxSegmentSize d).mirror.entries ∧
    (opening d').places = (opening d).places

/-- `recs` are the records of `d` in front of its first bad frame, which is at `t`, and `es` the
entries that they rebuild on the snapshot. The frame is unreadable, holds no record, or holds an entry
that leaves a gap. -/
structure Torn (d : Dir) (recs : List Record) (es : List Entry) (t : Tear) : Prop where
  front : ∃ whole, listing d.segs = whole ++ t.seq :: t.later ∧
    (∀ n ∈ whole, (recordsUpTo (readFile d.segs n)).2 = none) ∧
    recs = whole.flatMap (fun n => segmentRecords (readFile d.segs n)) ++
      segmentRecords ((readFile d.segs t.seq).take t.off)
  cut : (recordsUpTo ((readFile d.segs t.seq).take t.off)).2 = none
  inside : t.off < (readFile d.segs t.seq).length
  log : logOf (loadLatestSnapshot d {}).offset recs = some es
  bad : ∀ p n r, readFrame (readFile d.segs t.seq) t.off = some (p,n) → Record.parse p = some r →
    r.gaps ((loadLatestSnapshot d {}).offset + es.length)

/-- The replay of `names` from `m` stops at `t`, with the records `recs` taken and the state `m'`. -/
structure Stops (files : List (Nat × Bytes)) (names : List Nat) (m : Mirror) (recs : List Record) (m' : Mirror) (t : Tear) :
    Prop where
  front : ∃ whole, names = whole ++ t.seq :: t.later ∧ (∀ n ∈ whole, (recordsUpTo (readFile files n)).2 = none) ∧
    recs = whole.flatMap (fun n => segmentRecords (readFile files n)) ++ segmentRecords ((readFile files t.seq).take t.off)
  cut : (recordsUpTo ((readFile files t.seq).take t.off)).2 = none
  inside : t.off < (readFile files t.seq).length
  state : feed Mirror.redo m recs = some m'
  bad : ((readFrame (readFile files t.seq) t.off).bind fun f => m'.applyRecord f.1) = none

theorem Stops.of_tear {files : List (Nat × Bytes)} {t : Tear} {names : List Nat} : ∀ {m : Mirror},
    (replay files m names).tear = some t → ∃ recs, Stops files names m recs (replay files m names).mirror t := by
  induction names with
  | nil => intro m h; cases h
  | cons seq rest ih =>
    intro m h
    simp only [replay] at h ⊢
    cases hs : scan readFrame Mirror.applyRecord (readFile files seq) ((readFile files seq).length + 1) 0 m with
    | mk m' stop =>
      rw [hs] at h
      cases stop with
      | some off =>
        obtain rfl := Option.some.inj h
        obtain ⟨-,hlt,hbad⟩ := scan_stop hs
        have htake := (readFrame_local.scan_take (((readFile files seq).take off).length + 1) hs (by
          rw [List.length_take_of_le (Nat.le_of_lt hlt)]
          omega)).1
        rw [Mirror.applyRecord_parse] at htake
        obtain ⟨hfeed,hend⟩ := parsed_of_scan htake
        exact ⟨_,⟨[],rfl,by simp,rfl⟩,hend,hlt,hfeed,hbad⟩
      | none =>
        rw [Mirror.applyRecord_parse] at hs
        obtain ⟨hfeed,hend⟩ := parsed_of_scan hs
        obtain ⟨recs,⟨⟨whole,hnames,hwhole,hrecs⟩,hcut,hin,hstate,hbad⟩⟩ := ih h
        refine ⟨segmentRecords (readFile files seq) ++ recs,⟨seq :: whole,by rw [hnames]; rfl,?_,?_⟩,hcut,hin,?_,hbad⟩
        · simpa using ⟨hend,hwhole⟩
        · rw [hrecs,List.flatMap_cons,List.append_assoc]
        · rw [feed_append,segmentRecords,recordsUpTo,hfeed]
          exact hstate

theorem Stops.replay {files : List (Nat × Bytes)} {t : Tear} {m' : Mirror} {names : List Nat} {recs : List Record} :
    ∀ {m : Mirror}, Stops files names m recs m' t →
      (replay files m names).tear = some t ∧ (replay files m names).mirror = m' := by
  rintro m ⟨⟨whole,rfl,hwhole,rfl⟩,hcut,hin,hstate,hbad⟩
  induction whole generalizing m with
  | nil =>
    have hlen : ((readFile files t.seq).take t.off).length = t.off := List.length_take_of_le (Nat.le_of_lt hin)
    have htake : scan readFrame (fun m p => (Record.parse p).bind m.redo) ((readFile files t.seq).take t.off)
        (((readFile files t.seq).take t.off).length + 1) 0 m = (m',none) := hcut ▸ scan_parsed hstate
    rw [← Mirror.applyRecord_parse,hlen] at htake
    have hscan := readFrame_local.scan_stopped hin hbad ((readFile files t.seq).length + 1) (Nat.zero_le _) htake
      (by omega) (by omega)
    simp only [List.nil_append,Disk.replay,hscan,and_self]
  | cons seq whole ih =>
    rw [List.flatMap_cons,List.append_assoc,feed_append] at hstate
    obtain ⟨m₁,hm₁,hstate⟩ := Option.bind_eq_some_iff.mp hstate
    have hscan : scan readFrame (fun m p => (Record.parse p).bind m.redo) (readFile files seq)
        ((readFile files seq).length + 1) 0 m = (m₁,none) := hwhole seq (by simp) ▸ scan_parsed hm₁
    rw [← Mirror.applyRecord_parse] at hscan
    obtain ⟨htear,hmirror⟩ := ih (fun n hn => hwhole n (by simp [hn])) hstate
    simp only [List.cons_append,Disk.replay,hscan]
    exact ⟨htear,hmirror⟩

theorem Mirror.feed_redo_offset {m m' : Mirror} {rs : List Record} (h : feed redo m rs = some m') : m'.offset = m.offset := by
  rw [feed_redo,Option.map_eq_some_iff] at h
  obtain ⟨es,-,rfl⟩ := h
  rfl

private theorem loadLatestSnapshot_entries (d : Dir) : (loadLatestSnapshot d {}).entries = [] := by
  unfold loadLatestSnapshot
  split <;> rfl

theorem torn_iff {d : Dir} {recs : List Record} {es : List Entry} {t : Tear} :
    Torn d recs es t ↔ ∃ m, Stops d.segs (listing d.segs) (loadLatestSnapshot d {}) recs m t ∧ m.entries = es := by
  have hstate : ∀ m, feed Mirror.redo (loadLatestSnapshot d {}) recs = some m ↔
      ∃ es', logOf (loadLatestSnapshot d {}).offset recs = some es' ∧
        { loadLatestSnapshot d {} with
          entries := es'
          hardState := recs.foldl hardStep (loadLatestSnapshot d {}).hardState
          snapshotTruncationPending := (loadLatestSnapshot d {}).snapshotTruncationPending &&
            decide (.truncate (loadLatestSnapshot d {}).snapshot.metadata ∉ recs) } = m := by
    intro m
    rw [Mirror.feed_redo,loadLatestSnapshot_entries,Option.map_eq_some_iff]
    rfl
  have hbad : ∀ m : Mirror, ((readFrame (readFile d.segs t.seq) t.off).bind fun f => m.applyRecord f.1) = none ↔
      ∀ p n r, readFrame (readFile d.segs t.seq) t.off = some (p,n) → Record.parse p = some r →
        r.gaps (m.offset + m.entries.length) := by
    intro m
    simp only [Option.bind_eq_none_iff,Mirror.applyRecord_eq,Mirror.redo_eq_none_iff,Prod.forall]
    exact ⟨fun h p n r hr hp => h p n hr r hp,fun h p n hr r hp => h p n r hr hp⟩
  constructor
  · rintro ⟨hfront,hcut,hin,hlog,hgap⟩
    exact ⟨_,⟨hfront,hcut,hin,(hstate _).mpr ⟨es,hlog,rfl⟩,(hbad _).mpr hgap⟩,rfl⟩
  rintro ⟨m,⟨hfront,hcut,hin,hs,hb⟩,rfl⟩
  obtain ⟨es',hlog,rfl⟩ := (hstate m).mp hs
  exact ⟨hfront,hcut,hin,hlog,(hbad _).mp hb⟩

/-- The segments of `d'` that lie behind the bad frame of `d` are barren. -/
def Harmless (d d' : Dir) : Prop :=
  ∀ recs es t, Torn d recs es t →
    Barren (loadLatestSnapshot d {}).offset ((loadLatestSnapshot d {}).offset + es.length)
      ((t.later.filter (· ∈ d'.segs.map (·.1))).map (readFile d'.segs))

theorem Interrupted.resumed {d d' : Dir} (h : Interrupted d d') (hn : (d.segs.map (·.1)).Nodup) {t : Tear}
    (ht : (opening d).tear = some t) :
    let r := replay d'.segs (opening d).mirror (t.later.filter (· ∈ d'.segs.map (·.1)))
    opening d' = { r with places := (opening d).places ++ r.places } := by
  obtain ⟨hmade⟩ := h
  simp only [Replay.mends,ht,List.tail_cons] at hmade
  obtain ⟨gone,hgone,rfl⟩ := List.sublist_map_iff.mp hmade
  have hmends : (opening d).mends.take 1 = [.truncate t.seq t.off] := by simp [Replay.mends,ht]
  rw [hmends,List.singleton_append,List.foldl_cons,foldl_remove]
  have hnodup : (listing d.segs).Nodup := (List.perm_insertionSort ..).nodup_iff.mpr hn
  have hlater := replay_tear ht
  have hlist : listing ((d.perform (.truncate t.seq t.off)).segs.filter (·.1 ∉ gone)) =
      (listing d.segs).filter (· ∉ gone) := by
    rw [listing_filter _ (· ∉ gone),Dir.perform,listing_edit]
  have hleft : t.later.filter (· ∈ ((d.perform (.truncate t.seq t.off)).segs.filter (·.1 ∉ gone)).map (·.1)) =
      t.later.filter (· ∉ gone) := by
    refine List.filter_congr fun n hl => decide_eq_decide.mpr ?_
    rw [← mem_listing,hlist,List.mem_filter]
    simp [hlater.subset (List.mem_cons_of_mem _ hl)]
  simp only [hleft]
  unfold opening
  rw [hlist]
  refine replay_resumed ht hnodup (fun n _ hl => by simpa using fun hg => hl (hgone.subset hg)) ?_ fun n _ hne hk => ?_
  · have hkept : t.seq ∉ gone := fun hg => (List.nodup_cons.mp (hnodup.sublist hlater)).1 (hgone.subset hg)
    rw [readFile_filter _ (· ∉ gone) (by simpa using hkept),Dir.perform,readFile_edit _ _ (List.take_nil ..),if_pos rfl]
  · rw [readFile_filter _ (· ∉ gone) hk,Dir.perform,readFile_edit _ _ (List.take_nil ..),if_neg hne]

/-- A crash inside `Open` is harmless exactly when nothing that is left behind the bad frame would
be replayed. -/
theorem interrupted_open_iff (maxSegmentSize : Nat) {d d' : Dir} (hn : (d.segs.map (·.1)).Nodup) (h : Interrupted d d') :
    Reopens maxSegmentSize d d' ↔ Harmless d d' := by
  -- The tear and the log in front of it, as the replay finds them.
  have htorn : ∀ {recs es t}, Torn d recs es t → (opening d).tear = some t ∧
      (opening d).mirror.offset = (loadLatestSnapshot d {}).offset ∧ (opening d).mirror.entries = es := by
    intro recs es t ht
    obtain ⟨m,hs,hes⟩ := torn_iff.mp ht
    obtain ⟨htear,hm⟩ := hs.replay
    rw [opening,hm]
    exact ⟨htear,Mirror.feed_redo_offset hs.state,hes⟩
  cases ht : (opening d).tear with
  | none =>
    have hd : d' = d := by
      obtain ⟨hmade⟩ := h
      simp only [Replay.mends,ht,List.tail_nil,List.sublist_nil] at hmade ⊢
      rw [hmade]
      rfl
    rw [hd]
    refine ⟨fun _ recs es t ht' => ?_,fun _ => ⟨rfl,rfl,rfl⟩⟩
    rw [(htorn ht').1] at ht
    cases ht
  | some t =>
    have hr := h.resumed hn ht
    have hplaces : (opening d').places = (opening d).places ↔ Barren (opening d).mirror.offset
        ((opening d).mirror.offset + (opening d).mirror.entries.length)
        ((t.later.filter (· ∈ d'.segs.map (·.1))).map (readFile d'.segs)) := by
      rw [hr,← replay_places_nil.1]
      exact List.append_right_eq_self
    constructor
    · rintro ⟨-,-,hp⟩ recs es t' ht'
      obtain ⟨htear,hoff,rfl⟩ := htorn ht'
      obtain rfl : t = t' := Option.some.inj (ht.symm.trans htear)
      rw [← hoff]
      exact hplaces.mp hp
    intro hb
    obtain ⟨recs,hs⟩ := Stops.of_tear ht
    have ht' : Torn d recs _ t := torn_iff.mpr ⟨_,hs,rfl⟩
    have hbarren := hb _ _ t ht'
    rw [← (htorn ht').2.1] at hbarren
    have hp := hplaces.mpr hbarren
    have hm : (openDir maxSegmentSize d').mirror = (openDir maxSegmentSize d).mirror := by
      apply openDir_mirror_congr
      rw [hr]
      exact replay_places_nil.2 (replay_places_nil.1.mpr hbarren)
    exact ⟨by rw [hm],by rw [hm],hp⟩

/-- Two entries, then half a record; the segments behind it are empty and unreadable. -/
def torn : Dir :=
  { segs := [(1,bytes [.entry { term := 1, index := 1 }]),(2,bytes [.entry { term := 1, index := 2 }] ++ [0,0,0]),
      (3,[]),(4,[7])] }

theorem interrupted_open_torn : Reopens 0 torn (torn.perform (.truncate 2 30)) := by
  have ht : (opening torn).tear = some { seq := 2, off := 30, later := [3,4] } := by decide +kernel
  refine (interrupted_open_iff 0 (by decide) (.cut ht)).mpr fun recs es t ht' => ?_
  obtain ⟨m,hs,rfl⟩ := torn_iff.mp ht'
  obtain ⟨htear,rfl⟩ := hs.replay
  obtain rfl := Option.some.inj (ht.symm.trans htear)
  decide +kernel

/-- A hard state and an entry lie in the segment behind the tear. -/
def orphaned : Dir :=
  { segs := [(1,bytes [.entry { term := 1, index := 1 }] ++ [0,0,0]),
      (2,bytes [.hardState { term := 9 },.entry { term := 9, index := 2 }])] }

/-- A crash between the cut and the removal brings both back. -/
theorem interrupted_open_resurrects :
    let d := orphaned.perform (.truncate 1 30)
    Interrupted orphaned d ∧
      (openDir 0 orphaned).mirror.hardState = {} ∧ (openDir 0 orphaned).mirror.entries = [{ term := 1, index := 1 }] ∧
      (openDir 0 d).mirror.hardState = { term := 9 } ∧
      (openDir 0 d).mirror.entries = [{ term := 1, index := 1 },{ term := 9, index := 2 }] := by
  have ht : (opening orphaned).tear = some { seq := 1, off := 30, later := [2] } := by decide +kernel
  exact ⟨.cut ht,by decide +kernel,by decide +kernel,by decide +kernel,by decide +kernel⟩

end Parallax.Disk
