import Parallax.Disk.Reload

/-! Calls on a sound storage, and the runs of a storage with crashes in any call and in `Open`. -/
namespace Parallax.Disk
open Scan

/-- The numbers are 64-bit words, batches are contiguous and every record is within the bound. -/
def Call.Fits : Call → Prop
  | .appendEntries entries => Disk.Contiguous entries ∧ ∀ e ∈ entries, EntryFits e
  | .setHardState st => (Record.hardState st).Fits
  | .applySnapshot snap => SnapFits snap
  | .sync => True

instance : (c : Call) → Decidable c.Fits
  | .appendEntries _ => inferInstanceAs (Decidable (_ ∧ _))
  | .setHardState _ => inferInstanceAs (Decidable (_ ∧ _ ∧ _))
  | .applySnapshot _ => inferInstanceAs (Decidable (_ ∧ _ ∧ _))
  | .sync => isTrue trivial

/-- What goes to the log fits its format; a snapshot may have any size. -/
def Call.Framed : Call → Prop
  | .applySnapshot snap => U64 snap.metadata.index ∧ U64 snap.metadata.term
  | c => c.Fits

instance : (c : Call) → Decidable c.Framed
  | .applySnapshot _ => inferInstanceAs (Decidable (_ ∧ _))
  | .appendEntries entries => inferInstanceAs (Decidable (Call.appendEntries entries).Fits)
  | .setHardState st => inferInstanceAs (Decidable (Call.setHardState st).Fits)
  | .sync => isTrue trivial

/-- A snapshot inside the log whose boundary entry has another term. -/
def Storage.Conflicts (s : Storage) (snap : Snapshot) : Prop :=
  s.offset < snap.metadata.index ∧ snap.metadata.index < s.offset + s.mirror.entries.length ∧
    (s.mirror.entries[snap.metadata.index - s.offset - 1]?).map Entry.term ≠ some snap.metadata.term

instance (s : Storage) (snap : Snapshot) : Decidable (s.Conflicts snap) := inferInstanceAs (Decidable (_ ∧ _ ∧ _))

/-- `is` are indices above the snapshot appended since the last conflicting snapshot; so they are
after the call. -/
def Call.expose (s : Storage) (is : List Nat) : Call → List Nat
  | .appendEntries entries => is ++ ((above s.offset entries).getD []).map Entry.index
  | .applySnapshot snap => if s.Conflicts snap then [] else is
  | .setHardState _ | .sync => is

namespace Storage

/-- `ApplySnapshot` after the snapshot file is durable and the mirror is set. -/
def installed (s : Storage) (snap : Snapshot) (flag : Bool) (entries : List Entry) : Storage :=
  { s.writeSnapshotFile snap flag with
    mirror := { s.mirror with entries := entries, snapshot := snap, snapshotTruncationPending := flag } }

theorem applySnapshot_conflict {s : Storage} {snap : Snapshot} (h : s.Conflicts snap) (maxSegmentSize : Nat) :
    s.applySnapshot maxSegmentSize snap = .ok ((s.installed snap true []).writeMarker maxSegmentSize) := by
  obtain ⟨h₁,h₂,h₃⟩ := h
  have hr : ¬ (snap.metadata.index < s.offset + s.mirror.entries.length ∧
      Option.map Entry.term s.mirror.entries[snap.metadata.index - s.offset - 1]? = some snap.metadata.term) :=
    fun h => h₃ h.2
  simp only [applySnapshot]
  rw [if_neg (by omega),if_pos ⟨h₂,hr⟩,if_neg hr]
  simp only [decide_eq_true (And.intro h₂ hr)]
  rfl

theorem applySnapshot_clean {s : Storage} {snap : Snapshot} (hlt : s.offset < snap.metadata.index)
    (h : ¬ s.Conflicts snap) (maxSegmentSize : Nat) :
    s.applySnapshot maxSegmentSize snap =
      .ok (s.installed snap false (s.mirror.entries.drop (snap.metadata.index - s.offset))) := by
  simp only [applySnapshot]
  rw [if_neg (by omega)]
  by_cases hr : snap.metadata.index < s.offset + s.mirror.entries.length ∧
      Option.map Entry.term s.mirror.entries[snap.metadata.index - s.offset - 1]? = some snap.metadata.term
  · rw [if_neg (fun hc => hc.2 hr),if_pos hr]
    simp only [hr]
    rfl
  have hlast : ¬ snap.metadata.index < s.offset + s.mirror.entries.length := fun hlast =>
    h ⟨hlt,hlast,fun heq => hr ⟨hlast,heq⟩⟩
  rw [if_neg (fun hc => hlast hc.1),if_neg hr,List.drop_eq_nil_of_le (by omega)]
  simp only [hlast,false_and,decide_false]
  rfl

private theorem foldl_appendFrame (rs : List Record) (es : List Entry) :
    es.foldl (fun buf e => appendFrame buf (encodeEntry e)) (bytes rs) = bytes (rs ++ es.map .entry) := by
  induction es generalizing rs with
  | nil => simp
  | cons e es ih =>
    have := appendFrame_bytes rs (.entry e)
    rw [List.foldl_cons,show encodeEntry e = (Record.entry e).payload from rfl,this,ih]
    simp

theorem Kept.installed {s : Storage} {done pend : List Record} (h : s.Kept done pend) (snap : Snapshot) (f : Bool)
    (entries : List Entry) : (s.installed snap f entries).Kept done pend := by
  obtain ⟨files,last,hl,hdone⟩ := h.laid
  exact ⟨⟨files,last,⟨hl.segs,hl.asc,hl.stub,hl.fits⟩,hdone⟩,h.buf,h.fits⟩

namespace Held
variable {s s' : Storage} {done pend : List Record} {es : List Entry}

private theorem appendEntries (h : s.Held done pend es) {batch : List Entry} (hb : (Call.appendEntries batch).Fits)
    (hs : s.appendEntries batch = .ok s') :
    (above s.offset batch = none ∧ s' = s) ∨
      ∃ new, above s.offset batch = some new ∧ s'.mirror.snapshot = s.mirror.snapshot ∧ s'.dir = s.dir ∧ s'.ops = s.ops ∧
        s'.Held done (pend ++ new.map .entry) s'.mirror.entries := by
  rw [appendEntries_eq] at hs
  cases ha : above s.offset batch with
  | none =>
    rw [ha] at hs
    exact .inl ⟨rfl,(Except.ok.inj hs).symm⟩
  | some new =>
    obtain ⟨first,rest,rfl,hsuf,hoff⟩ := hb.1.above ha
    have hcont : Contiguous (first :: rest) := List.IsChain.suffix hb.1 hsuf
    simp only [ha,spliceEntries] at hs
    split at hs
    · cases hs
    rename_i hpos
    obtain rfl := Except.ok.inj hs
    have hpos' : first.index - (s.offset + 1) ≤ es.length ∧
        es.take (first.index - (s.offset + 1)) = s.mirror.entries.take (first.index - (s.offset + 1)) := by
      rcases Nat.eq_zero_or_pos (first.index - (s.offset + 1)) with h₀ | h₀
      · simp [h₀]
      · rw [h.entries (List.ne_nil_of_length_pos (by omega))]
        exact ⟨by omega,rfl⟩
    refine .inr ⟨_,rfl,rfl,rfl,rfl,⟨⟨h.laid,?_,?_⟩,h.named,h.topped,h.number,?_,fun _ => rfl,?_,h.settled⟩⟩
    · rw [h.buf,foldl_appendFrame]
    · intro r hr
      rcases List.mem_append.mp hr with hr | hr
      · exact h.fits r hr
      · obtain ⟨e,he,rfl⟩ := List.mem_map.mp hr
        exact hb.2 e (hsuf.subset he)
    · rw [← List.append_assoc,logOf_append]
      have := feed_batch hcont hoff hpos'.1
      rw [hpos'.2] at this
      exact (congrArg (Option.bind · _) h.log).trans this
    · rw [← List.append_assoc,hardOf_entries]
      exact h.hard

private theorem setHardState (h : s.Held done pend es) {st : HardState} (hst : (Record.hardState st).Fits) :
    (s.setHardState st).Held done (pend ++ [.hardState st]) es where
  toKept := h.toKept.push hst
  named := h.named
  topped := h.topped
  number := h.number
  log := by
    rw [← List.append_assoc,logOf_append]
    exact congrArg (Option.bind · _) h.log
  entries := h.entries
  hard := by
    rw [← List.append_assoc,hardOf_append]
    rfl
  settled := h.settled

private theorem sync (h : s.Held done pend es) (maxSegmentSize : Nat) : (s.sync maxSegmentSize).Held (done ++ pend)
    [] es := by
  have hm : (s.sync maxSegmentSize).mirror = s.mirror := syncBuffered_mirror ..
  have hsnaps : (s.sync maxSegmentSize).dir.snaps = s.dir.snaps := Kept.sync_snaps ..
  refine ⟨h.toKept.sync maxSegmentSize,h.named.snaps_eq hsnaps,?_,?_,?_,?_,?_,?_⟩
  · rw [offset,hm]
    exact h.topped.snaps_eq hsnaps
  · rw [hm]
    exact h.number
  · rw [offset,hm,List.append_nil]
    exact h.log
  · rw [hm]
    exact h.entries
  · rw [hm,List.append_nil]
    exact h.hard
  · rw [hm]
    exact h.settled

/-- A snapshot without a conflict, of any size. -/
theorem applySnapshot_clean (h : s.Held done pend es) {snap : Snapshot}
    (hnumber : U64 snap.metadata.index ∧ U64 snap.metadata.term) (hlt : s.offset < snap.metadata.index) :
    ∃ es', (s.installed snap false (s.mirror.entries.drop (snap.metadata.index - s.offset))).Held done pend es' := by
  obtain ⟨es',hes',hrem⟩ := logOf_later (Nat.le_of_lt hlt) h.log
  refine ⟨es',⟨h.toKept.installed snap _ _,h.named.install hnumber _,h.topped.install hlt _,hnumber,hes',?_,h.hard,rfl⟩⟩
  intro hne
  have hes := h.entries (fun hnil => hne (by simp [installed,hnil]))
  rw [hes] at hrem
  exact hrem hne

/-- A snapshot that conflicts with the log, of any size. -/
theorem applySnapshot_conflict (h : s.Held done pend es) {snap : Snapshot}
    (hnumber : U64 snap.metadata.index ∧ U64 snap.metadata.term) (hlt : s.offset < snap.metadata.index)
    (maxSegmentSize : Nat) :
    ((s.installed snap true []).writeMarker maxSegmentSize).Held (done ++ (pend ++ [.truncate snap.metadata])) [] [] := by
  have hm : ((s.installed snap true []).writeMarker maxSegmentSize).mirror =
      { hardState := s.mirror.hardState, snapshot := snap } := writeMarker_mirror ..
  obtain ⟨es',hes',-⟩ := logOf_later (Nat.le_of_lt hlt) h.log
  refine ⟨(h.toKept.installed snap true []).writeMarker hnumber maxSegmentSize,
    (h.named.install hnumber true).snaps_eq (writeMarker_snaps ..),?_,?_,?_,?_,?_,?_⟩
  · rw [offset,hm]
    exact (h.topped.install hlt _).snaps_eq (writeMarker_snaps ..)
  · rw [hm]
    exact hnumber
  · rw [offset,hm,List.append_nil,← List.append_assoc]
    exact logOf_marker hes' le_rfl
  · rw [hm]
    exact fun hne => absurd rfl hne
  · rw [hm,List.append_nil,← List.append_assoc,hardOf_append]
    exact h.hard
  · rw [hm]

theorem cut_conflict (h : s.Held done pend es) {snap : Snapshot}
    (hnumber : U64 snap.metadata.index ∧ U64 snap.metadata.term) {maxSegmentSize : Nat} {d : Dir}
    (hd : Cut (((s.installed snap true []).writeMarker maxSegmentSize).ops.drop s.ops.length) s.dir d) :
    d = s.dir ∨ d.snaps = (s.installed snap true []).dir.snaps ∧
      ∃ j, Holding d (done ++ (pend ++ [Record.truncate snap.metadata]).take j) := by
  have hops : ((s.installed snap true []).writeMarker maxSegmentSize).ops.drop s.ops.length =
      .install snap.metadata.index (appendFrame [] (snapPayload snap true)) ::
        ((s.installed snap true []).writeMarker maxSegmentSize).ops.drop (s.installed snap true []).ops.length := by
    simp [writeMarker,syncBuffered_ops,Storage.installed,writeSnapshotFile,perform]
  rw [hops] at hd
  cases hd with
  | now => exact .inl rfl
  | next hd => exact .inr ((h.toKept.installed snap true []).cut_writeMarker hnumber hd)

end Held

namespace Backed
variable {s s' : Storage} {flag : Bool} {done pend : List Record} {es : List Entry}

theorem appendEntries (h : s.Backed flag done pend es) {batch : List Entry} (hb : (Call.appendEntries batch).Fits)
    (hs : s.appendEntries batch = .ok s') :
    (above s.offset batch = none ∧ s' = s) ∨
      ∃ new, above s.offset batch = some new ∧ s'.mirror.snapshot = s.mirror.snapshot ∧ s'.ops = s.ops ∧
        s'.Backed flag done (pend ++ new.map .entry) s'.mirror.entries := by
  rcases h.toHeld.appendEntries hb hs with hsame | ⟨new,ha,hsnap,hdir,hops,h'⟩
  · exact .inl hsame
  · exact .inr ⟨new,ha,hsnap,hops,h',by rw [hdir,hsnap]; exact h.load,by rw [hsnap]; exact h.marked⟩

theorem setHardState (h : s.Backed flag done pend es) {st : HardState} (hst : (Record.hardState st).Fits) :
    (s.setHardState st).Backed flag done (pend ++ [.hardState st]) es :=
  ⟨h.toHeld.setHardState hst,h.load,h.marked⟩

theorem sync (h : s.Backed flag done pend es) (maxSegmentSize : Nat) :
    (s.sync maxSegmentSize).Backed flag (done ++ pend) [] es := by
  have hm : (s.sync maxSegmentSize).mirror = s.mirror := syncBuffered_mirror ..
  refine ⟨h.toHeld.sync maxSegmentSize,?_,?_⟩
  · rw [hm]
    exact (h.newest.snaps_eq (Kept.sync_snaps ..)).load
  · rw [hm]
    exact fun hf => List.mem_append_left _ (h.marked hf)

theorem cut_conflict (h : s.Backed flag done pend es) {snap : Snapshot} (hfits : SnapFits snap)
    (hlt : s.offset < snap.metadata.index) {maxSegmentSize : Nat} {d : Dir}
    (hd : Cut (((s.installed snap true []).writeMarker maxSegmentSize).ops.drop s.ops.length) s.dir d) :
    d = s.dir ∨ ∃ j es', Readable d snap true (done ++ (pend ++ [Record.truncate snap.metadata]).take j) es' := by
  have hnumber : U64 snap.metadata.index ∧ U64 snap.metadata.term := ⟨hfits.1,hfits.2.1⟩
  rcases h.toHeld.cut_conflict hnumber hd with hd | ⟨hsnaps,j,hj⟩
  · exact .inl hd
  obtain ⟨es',hes',-⟩ := logOf_later (Nat.le_of_lt hlt) h.log
  have hlog := logOf_marker hes' (Nat.le_refl snap.metadata.index)
  rw [List.append_assoc] at hlog
  obtain ⟨es₀,h₀⟩ := Readable.of_front hj ((h.newest.install hfits hlt true).snaps_eq hsnaps) hnumber hlog
  exact .inr ⟨j,es₀,h₀⟩

end Backed

namespace Sound
variable {s s' : Storage} {flag : Bool} {done pend : List Record} {es : List Entry} {maxSegmentSize : Nat}

private theorem applySnapshot_clean (h : s.Sound flag done pend es) {snap : Snapshot} (hfits : SnapFits snap)
    (hlt : s.offset < snap.metadata.index) :
    ∃ es', (s.installed snap false (s.mirror.entries.drop (snap.metadata.index - s.offset))).Sound false done pend es' := by
  obtain ⟨es',h'⟩ := h.toHeld.applySnapshot_clean ⟨hfits.1,hfits.2.1⟩ hlt
  exact ⟨es',⟨h',(h.newest.install hfits hlt false).load,by simp⟩,h.below.mono (Nat.le_of_lt hlt)⟩

private theorem applySnapshot_conflict (h : s.Sound flag done pend es) {snap : Snapshot} (hfits : SnapFits snap)
    (hlt : s.offset < snap.metadata.index) :
    ((s.installed snap true []).writeMarker maxSegmentSize).Sound true (done ++ (pend ++ [.truncate snap.metadata])) []
      [] := by
  have hm : ((s.installed snap true []).writeMarker maxSegmentSize).mirror =
      { hardState := s.mirror.hardState, snapshot := snap } := writeMarker_mirror ..
  refine ⟨⟨h.toHeld.applySnapshot_conflict ⟨hfits.1,hfits.2.1⟩ hlt maxSegmentSize,?_,?_⟩,?_⟩
  · rw [hm]
    exact ((h.newest.install hfits hlt true).snaps_eq (writeMarker_snaps ..)).load
  · rw [hm]
    simp
  · rw [offset,hm,List.append_nil,← List.append_assoc]
    exact (h.below.mono (Nat.le_of_lt hlt)).append (markedBelow_marker snap.metadata)

end Sound
end Storage

/-- A storage in use, or the directory after a crash. -/
inductive Status where
  | up (s : Storage)
  | down (d : Dir)

/-- Runs over a directory that is found, of allowed calls, with crashes in any call and in `Open`. -/
inductive Runs (maxSegmentSize : Nat) (found : Dir → Prop) (allowed : Call → Prop) : Status → Prop where
  | found {d : Dir} : found d → Runs maxSegmentSize found allowed (.down d)
  | opened {d : Dir} : Runs maxSegmentSize found allowed (.down d) →
      Runs maxSegmentSize found allowed (.up (openDir maxSegmentSize d))
  | called {s s' : Storage} {c : Call} : Runs maxSegmentSize found allowed (.up s) → allowed c →
      s.call maxSegmentSize c = .ok s' → Runs maxSegmentSize found allowed (.up s')
  | crashed {s s' : Storage} {c : Call} {d : Dir} : Runs maxSegmentSize found allowed (.up s) → allowed c →
      s.call maxSegmentSize c = .ok s' → Cut (s'.ops.drop s.ops.length) s.dir d → Runs maxSegmentSize found allowed (.down d)
  | crashedOpening {d d' : Dir} : Runs maxSegmentSize found allowed (.down d) →
      Cut (openDir maxSegmentSize d).ops d d' → Runs maxSegmentSize found allowed (.down d')

/-- Runs of calls within the bound that start with an empty directory. -/
abbrev Reach (maxSegmentSize : Nat) : Status → Prop := Runs maxSegmentSize (· = {}) Call.Fits

/-- The first segment of a new directory. -/
theorem intact_first : Intact { segs := [(1,[])] } {} false [] [] where
  holding := ⟨[],1,[],[],⟨rfl,by simp,.nil,by simp⟩,rfl⟩
  newest := .of_nil rfl
  number := ⟨by decide,by decide⟩
  log := rfl
  below := by intro md hmd; simp at hmd

theorem openDir_empty (maxSegmentSize : Nat) :
    openDir maxSegmentSize {} = { dir := { segs := [(1,[])] }, segSeq := 1, ops := [.create 1] } := rfl

theorem sound_first (maxSegmentSize : Nat) : (openDir maxSegmentSize {}).Sound false [] [] [] := by
  rw [openDir_empty]
  exact ⟨⟨⟨⟨⟨[],[],⟨rfl,by simp,.nil,by simp⟩,rfl⟩,rfl,by simp⟩,intact_first.newest.named,intact_first.newest.topped,
    intact_first.number,rfl,fun hne => absurd rfl hne,rfl,rfl⟩,intact_first.newest.load,by simp⟩,intact_first.below⟩

theorem Storage.Sound.call {s s' : Storage} {flag : Bool} {done pend : List Record} {es : List Entry}
    {maxSegmentSize : Nat} (h : s.Sound flag done pend es) {c : Call} (hc : c.Fits)
    (hs : s.call maxSegmentSize c = .ok s') :
    ∃ flag' done' pend' es', s'.Sound flag' done' pend' es' ∧
      sinceMarker (done' ++ pend') = c.expose s (sinceMarker (done ++ pend)) := by
  cases c with
  | appendEntries batch =>
    rcases h.toBacked.appendEntries hc hs with ⟨ha,rfl⟩ | ⟨new,ha,hsnap,-,h'⟩
    · exact ⟨_,_,_,_,h,by simp [Call.expose,ha]⟩
    refine ⟨_,_,_,_,⟨h',?_⟩,?_⟩
    · rw [Storage.offset,hsnap,← List.append_assoc]
      exact h.below.append (markedBelow_entries _ new)
    · rw [← List.append_assoc,sinceMarker_entries,Call.expose,ha]
      rfl
  | setHardState st =>
    obtain rfl := Except.ok.inj hs
    refine ⟨_,_,_,_,⟨h.toBacked.setHardState hc,?_⟩,?_⟩
    · rw [← List.append_assoc]
      exact h.below.append fun md hmd => by simp at hmd
    · rw [← List.append_assoc,sinceMarker_snoc]
      rfl
  | applySnapshot snap =>
    have hlt : s.offset < snap.metadata.index := by
      by_contra hle
      simp [Storage.call,Storage.applySnapshot,Nat.not_lt.mp hle] at hs
    by_cases hconf : s.Conflicts snap
    · rw [Storage.call,Storage.applySnapshot_conflict hconf] at hs
      obtain rfl := Except.ok.inj hs
      refine ⟨_,_,_,_,h.applySnapshot_conflict hc hlt,?_⟩
      rw [List.append_nil,← List.append_assoc,sinceMarker_snoc,Call.expose,if_pos hconf]
    rw [Storage.call,Storage.applySnapshot_clean hlt hconf] at hs
    obtain rfl := Except.ok.inj hs
    obtain ⟨es',h'⟩ := h.applySnapshot_clean hc hlt
    exact ⟨_,_,_,_,h',by rw [Call.expose,if_neg hconf]⟩
  | sync =>
    obtain rfl := Except.ok.inj hs
    refine ⟨_,_,_,_,⟨h.toBacked.sync maxSegmentSize,?_⟩,by rw [List.append_nil]; rfl⟩
    rw [Storage.offset,Storage.sync,Storage.syncBuffered_mirror,List.append_nil]
    exact h.below

theorem Storage.Sound.cut {s s' : Storage} {flag : Bool} {done pend : List Record} {es : List Entry}
    {maxSegmentSize : Nat} (h : s.Sound flag done pend es) {c : Call} (hc : c.Fits)
    (hs : s.call maxSegmentSize c = .ok s') {d : Dir} (hd : Cut (s'.ops.drop s.ops.length) s.dir d) :
    ∃ snap flag' recs es', Intact d snap flag' recs es' := by
  have hsame : ∀ {d}, d = s.dir → ∃ snap flag' recs es', Intact d snap flag' recs es' := by
    rintro d rfl
    obtain ⟨es₀,h₀⟩ := h.intact
    exact ⟨_,_,_,_,h₀⟩
  have hnone : s'.ops = s.ops → d = s.dir := by
    intro hops
    rw [hops,List.drop_length] at hd
    cases hd with
    | now => rfl
  cases c with
  | appendEntries batch =>
    rcases h.toBacked.appendEntries hc hs with ⟨-,rfl⟩ | ⟨new,-,-,hops,-⟩
    · exact hsame (hnone rfl)
    · exact hsame (hnone hops)
  | setHardState st =>
    obtain rfl := Except.ok.inj hs
    exact hsame (hnone rfl)
  | applySnapshot snap =>
    have hlt : s.offset < snap.metadata.index := by
      by_contra hle
      simp [Storage.call,Storage.applySnapshot,Nat.not_lt.mp hle] at hs
    by_cases hconf : s.Conflicts snap
    · rw [Storage.call,Storage.applySnapshot_conflict hconf] at hs
      obtain rfl := Except.ok.inj hs
      rcases h.toBacked.cut_conflict hc hlt hd with hd | ⟨j,es',h'⟩
      · exact hsame hd
      have hbelow := (h.below.mono (Nat.le_of_lt hlt)).append (markedBelow_marker snap.metadata)
      rw [List.append_assoc] at hbelow
      exact ⟨_,_,_,_,h',hbelow.take⟩
    rw [Storage.call,Storage.applySnapshot_clean hlt hconf] at hs
    obtain rfl := Except.ok.inj hs
    obtain ⟨es',h'⟩ := h.applySnapshot_clean hc hlt
    obtain ⟨es₀,h₀⟩ := h'.intact
    simp only [Storage.installed,Storage.writeSnapshotFile,Storage.perform,List.drop_left] at hd
    cases hd with
    | now => exact hsame rfl
    | next hd =>
      cases hd with
      | now => exact ⟨_,_,_,_,h₀⟩
  | sync =>
    obtain rfl := Except.ok.inj hs
    rw [Storage.sync,Storage.syncBuffered_ops,List.drop_left] at hd
    obtain ⟨hsnaps,j,hj⟩ := h.toKept.cut hd
    obtain ⟨es₀,h₀⟩ := Intact.of_front hj (h.newest.snaps_eq hsnaps) h.number h.below h.log
    exact ⟨_,_,_,_,h₀⟩

/-- Every run keeps its storage sound and its directory recoverable. -/
theorem Reach.ok {maxSegmentSize : Nat} {x : Status} (h : Reach maxSegmentSize x) :
    match x with
    | .up s => ∃ flag done pend es, s.Sound flag done pend es
    | .down d => d = {} ∨ ∃ snap flag recs es, Intact d snap flag recs es := by
  induction h with
  | found hd => exact .inl hd
  | opened _ ih =>
    rcases ih with rfl | ⟨snap,flag,recs,es,h⟩
    · exact ⟨_,_,_,_,sound_first maxSegmentSize⟩
    · obtain ⟨⟨recs',es',h'⟩,-⟩ := h.opened maxSegmentSize
      exact ⟨_,_,_,_,h'⟩
  | called _ hc hs ih =>
    obtain ⟨flag,done,pend,es,h⟩ := ih
    obtain ⟨_,_,_,_,h',-⟩ := h.call hc hs
    exact ⟨_,_,_,_,h'⟩
  | crashed _ hc hs hd ih =>
    obtain ⟨flag,done,pend,es,h⟩ := ih
    exact .inr (h.cut hc hs hd)
  | crashedOpening _ hd ih =>
    rcases ih with rfl | ⟨snap,flag,recs,es,h⟩
    · rw [openDir_empty] at hd
      cases hd with
      | now => exact .inl rfl
      | next hd =>
        cases hd with
        | now => exact .inr ⟨_,_,_,_,intact_first⟩
    obtain ⟨-,hcut⟩ := h.opened maxSegmentSize
    obtain ⟨recs',es',h'⟩ := hcut _ hd
    exact .inr ⟨_,_,_,_,h'⟩

theorem Storage.Held.call {s s' : Storage} {done pend : List Record} {es : List Entry} {maxSegmentSize : Nat}
    (h : s.Held done pend es) {c : Call} (hc : c.Framed) (hs : s.call maxSegmentSize c = .ok s') :
    ∃ done' pend' es', s'.Held done' pend' es' := by
  cases c with
  | appendEntries batch =>
    rcases h.appendEntries hc hs with ⟨-,rfl⟩ | ⟨new,-,-,-,-,h'⟩
    · exact ⟨_,_,_,h⟩
    · exact ⟨_,_,_,h'⟩
  | setHardState st =>
    obtain rfl := Except.ok.inj hs
    exact ⟨_,_,_,h.setHardState hc⟩
  | applySnapshot snap =>
    have hlt : s.offset < snap.metadata.index := by
      by_contra hle
      simp [Storage.call,Storage.applySnapshot,Nat.not_lt.mp hle] at hs
    by_cases hconf : s.Conflicts snap
    · rw [Storage.call,Storage.applySnapshot_conflict hconf] at hs
      obtain rfl := Except.ok.inj hs
      exact ⟨_,_,_,h.applySnapshot_conflict hc hlt maxSegmentSize⟩
    rw [Storage.call,Storage.applySnapshot_clean hlt hconf] at hs
    obtain rfl := Except.ok.inj hs
    obtain ⟨es',h'⟩ := h.applySnapshot_clean hc hlt
    exact ⟨_,_,_,h'⟩
  | sync =>
    obtain rfl := Except.ok.inj hs
    exact ⟨_,_,_,h.sync maxSegmentSize⟩

theorem Storage.Held.cut {s s' : Storage} {done pend : List Record} {es : List Entry} {maxSegmentSize : Nat}
    (h : s.Held done pend es) {c : Call} (hc : c.Framed) (hs : s.call maxSegmentSize c = .ok s') {d : Dir}
    (hd : Cut (s'.ops.drop s.ops.length) s.dir d) : d.Named ∧ ∃ recs, Holding d recs := by
  have hsame : ∀ {d}, d = s.dir → d.Named ∧ ∃ recs, Holding d recs := by
    rintro d rfl
    exact ⟨h.named,_,h.toKept.holding⟩
  have hnone : s'.ops = s.ops → d = s.dir := by
    intro hops
    rw [hops,List.drop_length] at hd
    cases hd with
    | now => rfl
  cases c with
  | appendEntries batch =>
    rcases h.appendEntries hc hs with ⟨-,rfl⟩ | ⟨new,-,-,-,hops,-⟩
    · exact hsame (hnone rfl)
    · exact hsame (hnone hops)
  | setHardState st =>
    obtain rfl := Except.ok.inj hs
    exact hsame (hnone rfl)
  | applySnapshot snap =>
    have hlt : s.offset < snap.metadata.index := by
      by_contra hle
      simp [Storage.call,Storage.applySnapshot,Nat.not_lt.mp hle] at hs
    by_cases hconf : s.Conflicts snap
    · rw [Storage.call,Storage.applySnapshot_conflict hconf] at hs
      obtain rfl := Except.ok.inj hs
      rcases h.cut_conflict hc hd with hd | ⟨hsnaps,j,hj⟩
      · exact hsame hd
      · exact ⟨(h.named.install hc true).snaps_eq hsnaps,_,hj⟩
    rw [Storage.call,Storage.applySnapshot_clean hlt hconf] at hs
    obtain rfl := Except.ok.inj hs
    obtain ⟨es',h'⟩ := h.applySnapshot_clean hc hlt
    simp only [Storage.installed,Storage.writeSnapshotFile,Storage.perform,List.drop_left] at hd
    cases hd with
    | now => exact hsame rfl
    | next hd =>
      cases hd with
      | now => exact ⟨h'.named,_,h'.toKept.holding⟩
  | sync =>
    obtain rfl := Except.ok.inj hs
    rw [Storage.sync,Storage.syncBuffered_ops,List.drop_left] at hd
    obtain ⟨hsnaps,j,hj⟩ := h.toKept.cut hd
    exact ⟨h.named.snaps_eq hsnaps,_,hj⟩

theorem Holding.opened {d : Dir} {recs : List Record} (h : Holding d recs) (hn : d.Named) (maxSegmentSize : Nat) :
    (∃ done es, (openDir maxSegmentSize d).Held done [] es) ∧
      ∀ d', Cut (openDir maxSegmentSize d).ops d d' → d'.Named ∧ ∃ recs', Holding d' recs' := by
  obtain ⟨snap,flag,hnew,hnumber⟩ := hn.newest
  obtain ⟨d₁,recs',es,o,hr,hd₁,hopen,hcut⟩ := h.reload hnew hnumber
  obtain ⟨⟨done,es',hb,-⟩,hcut'⟩ := hr.opened maxSegmentSize
  constructor
  · rw [hopen]
    exact ⟨done,es',⟨hb.laid,hb.buf,hb.fits⟩,hb.named,hb.topped,hb.number,hb.log,hb.entries,hb.hard,hb.settled⟩
  intro d' hd'
  rw [hopen] at hd'
  rcases Cut.append hd' with hd' | hd'
  · obtain ⟨hsnaps,hold⟩ := hcut d' hd'
    exact ⟨hn.snaps_eq hsnaps,hold⟩
  rw [← hd₁] at hd'
  obtain ⟨recs'',es'',hr',-⟩ := hcut' d' hd'
  exact ⟨hr'.newest.named,_,hr'.holding⟩

/-- Every run with snapshots of any size keeps its records whole. -/
theorem Runs.held {maxSegmentSize : Nat} {x : Status} (h : Runs maxSegmentSize (· = {}) Call.Framed x) :
    match x with
    | .up s => ∃ done pend es, s.Held done pend es
    | .down d => d = {} ∨ d.Named ∧ ∃ recs, Holding d recs := by
  induction h with
  | found hd => exact .inl hd
  | opened _ ih =>
    rcases ih with rfl | ⟨hn,recs,h⟩
    · exact ⟨_,_,_,(sound_first maxSegmentSize).toHeld⟩
    · obtain ⟨⟨done,es,h'⟩,-⟩ := h.opened hn maxSegmentSize
      exact ⟨_,_,_,h'⟩
  | called _ hc hs ih =>
    obtain ⟨done,pend,es,h⟩ := ih
    exact h.call hc hs
  | crashed _ hc hs hd ih =>
    obtain ⟨done,pend,es,h⟩ := ih
    exact .inr (h.cut hc hs hd)
  | crashedOpening _ hd ih =>
    rcases ih with rfl | ⟨hn,recs,h⟩
    · rw [openDir_empty] at hd
      cases hd with
      | now => exact .inl rfl
      | next hd =>
        cases hd with
        | now => exact .inr ⟨intact_first.newest.named,_,intact_first.holding⟩
    · exact .inr ((h.opened hn maxSegmentSize).2 _ hd)

end Parallax.Disk
