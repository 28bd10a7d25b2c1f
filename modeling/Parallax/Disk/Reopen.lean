import Parallax.Disk.Run

/-! What `Open` finds after a run of calls that ended in a Sync, and after a tear in the last
segment. -/
namespace Parallax.Disk
open Scan

/-- Indices above the snapshot appended since the last conflicting one, after all calls that
succeed. -/
def Storage.exposed (maxSegmentSize : Nat) (s : Storage) (is : List Nat) : List Call → List Nat
  | [] => is
  | c :: cs =>
    match s.call maxSegmentSize c with
    | .ok s' => s'.exposed maxSegmentSize (c.expose s is) cs
    | .error _ => s.exposed maxSegmentSize is cs

namespace Storage.Sound
variable {s : Storage} {flag : Bool} {done pend : List Record} {es : List Entry} (maxSegmentSize : Nat)

private theorem run_exposed (h : s.Sound flag done pend es) {cs : List Call} (hc : ∀ c ∈ cs, c.Fits) :
    ∃ flag' done' pend' es', (s.run maxSegmentSize cs).1.Sound flag' done' pend' es' ∧
      sinceMarker (done' ++ pend') = s.exposed maxSegmentSize (sinceMarker (done ++ pend)) cs := by
  induction cs generalizing s flag done pend es with
  | nil => exact ⟨_,_,_,_,h,rfl⟩
  | cons c cs ih =>
    have hcs : ∀ c' ∈ cs, c'.Fits := fun c' hc' => hc c' (by simp [hc'])
    rw [Storage.run,Storage.exposed]
    cases hs : s.call maxSegmentSize c with
    | ok s' =>
      obtain ⟨_,_,_,_,h',hm⟩ := h.call (hc c (by simp)) hs
      rw [← hm]
      exact ih h' hcs
    | error err => exact ih h hcs

end Storage.Sound

theorem Storage.Backed.reopen {s : Storage} {flag : Bool} {done : List Record} {es : List Entry} (maxSegmentSize : Nat)
    (h : s.Backed flag done [] es) : (openDir maxSegmentSize s.dir).mirror = { s.mirror with entries := es } := by
  obtain ⟨-,hm,-⟩ := h.readable.openDir_marked h.marked maxSegmentSize
  have hhard := h.hard
  rw [List.append_nil] at hhard
  rw [hm,← hhard,← h.settled]

theorem Storage.run_append (maxSegmentSize : Nat) (s : Storage) (cs cs' : List Call) :
    (s.run maxSegmentSize (cs ++ cs')).1 = ((s.run maxSegmentSize cs).1.run maxSegmentSize cs').1 := by
  induction cs generalizing s with
  | nil => rfl
  | cons c cs ih =>
    rw [List.cons_append,run,run]
    cases s.call maxSegmentSize c with
    | ok s' => exact ih s'
    | error err => exact ih s

/-- A synced storage is found again exactly if it has entries above its snapshot, or if no entry
above the snapshot was appended since a snapshot conflicted with the log. -/
theorem reopen_eq_iff (maxSegmentSize : Nat) (cs : List Call) (hc : ∀ c ∈ cs, c.Fits) :
    let s := ((openDir maxSegmentSize {}).run maxSegmentSize (cs ++ [.sync])).1
    (openDir maxSegmentSize s.dir).mirror = s.mirror ↔
      s.mirror.entries ≠ [] ∨ ∀ i ∈ (openDir maxSegmentSize {}).exposed maxSegmentSize [] cs, i ≤ s.offset := by
  intro s
  obtain ⟨flag,done,pend,es,h₀,hm⟩ := (sound_first maxSegmentSize).run_exposed maxSegmentSize hc
  have hs : s = ((openDir maxSegmentSize {}).run maxSegmentSize cs).1.sync maxSegmentSize := Storage.run_append ..
  have h : s.Backed flag (done ++ pend) [] es := hs ▸ h₀.toBacked.sync maxSegmentSize
  have hoff : s.offset = ((openDir maxSegmentSize {}).run maxSegmentSize cs).1.offset := by
    rw [hs,Storage.offset,Storage.sync,Storage.syncBuffered_mirror,Storage.offset]
  have hnil : es = [] ↔ ∀ i ∈ (openDir maxSegmentSize {}).exposed maxSegmentSize [] cs, i ≤ s.offset := by
    rw [hoff,logOf_eq_nil h₀.below h₀.log,hm]
    rfl
  rw [h.reopen maxSegmentSize,← hnil]
  constructor
  · intro heq
    have hes : es = s.mirror.entries := congrArg (·.entries) heq
    by_cases he : s.mirror.entries = []
    · exact .inr (hes.trans he)
    · exact .inl he
  intro hor
  have hes : es = s.mirror.entries := by
    by_cases he : s.mirror.entries = []
    · rw [he]
      exact hor.resolve_left (not_not.mpr he)
    · exact h.entries he
  rw [hes]

/-- The suffix that a new leader overwrote. -/
def overwriting : List Call :=
  [.appendEntries [{ term := 1, index := 1 },{ term := 1, index := 2 }],.appendEntries [{ term := 2, index := 1 }]]

theorem reopen_eq_overwriting :
    let s := ((openDir 0 {}).run 0 (overwriting ++ [.sync])).1
    (openDir 0 s.dir).mirror = s.mirror :=
  (reopen_eq_iff 0 overwriting (by decide)).mpr (.inl (by decide))

/-- Compaction of the overwriting entry brings the overwritten suffix back. -/
theorem reopen_resurrects :
    let cs := overwriting ++ [.applySnapshot { metadata := { index := 1, term := 2 } }]
    let s := ((openDir 0 {}).run 0 (cs ++ [.sync])).1
    (∀ c ∈ cs, c.Fits) ∧ s.mirror.entries = [] ∧
      (openDir 0 s.dir).mirror = { s.mirror with entries := [{ term := 1, index := 2 }] } := by
  decide +kernel

/-- A call that appends records and leaves the snapshot alone. -/
def Call.Appends : Call → Prop
  | .applySnapshot _ => False
  | _ => True

instance : (c : Call) → Decidable c.Appends
  | .applySnapshot _ => isFalse id
  | .appendEntries _ | .setHardState _ | .sync => isTrue trivial

/-- The records that a call appends when it is accepted. -/
def Call.records (s : Storage) : Call → List Record
  | .appendEntries entries => ((above s.offset entries).getD []).map .entry
  | .setHardState st => [.hardState st]
  | .applySnapshot _ | .sync => []

/-- The records that the accepted ones of the calls append. -/
def Storage.written (maxSegmentSize : Nat) (s : Storage) : List Call → List Record
  | [] => []
  | c :: cs =>
    match s.call maxSegmentSize c with
    | .ok s' => c.records s ++ s'.written maxSegmentSize cs
    | .error _ => s.written maxSegmentSize cs

namespace Storage.Backed
variable {s : Storage} {flag : Bool} {done pend : List Record} {es : List Entry} (maxSegmentSize : Nat)

theorem run_appends (h : s.Backed flag done pend s.mirror.entries) {cs : List Call}
    (hc : ∀ c ∈ cs, c.Fits ∧ c.Appends) :
    ∃ done' pend', (s.run maxSegmentSize cs).1.Backed flag done' pend' (s.run maxSegmentSize cs).1.mirror.entries ∧
      done' ++ pend' = done ++ pend ++ s.written maxSegmentSize cs ∧
      (s.run maxSegmentSize cs).1.mirror.snapshot = s.mirror.snapshot := by
  induction cs generalizing s done pend with
  | nil => exact ⟨done,pend,h,by simp [written],rfl⟩
  | cons c cs ih =>
    have hcs : ∀ c' ∈ cs, c'.Fits ∧ c'.Appends := fun c' hc' => hc c' (by simp [hc'])
    have hstep : ∀ s', s.call maxSegmentSize c = .ok s' → ∃ done' pend',
        s'.Backed flag done' pend' s'.mirror.entries ∧ done' ++ pend' = done ++ pend ++ c.records s ∧
        s'.mirror.snapshot = s.mirror.snapshot := by
      intro s' hs
      have hfits := hc c (by simp)
      cases c with
      | appendEntries batch =>
        rcases h.appendEntries hfits.1 hs with ⟨ha,rfl⟩ | ⟨new,ha,hsnap,-,h'⟩
        · exact ⟨_,_,h,by simp [Call.records,ha],rfl⟩
        · exact ⟨_,_,h',by simp [Call.records,ha],hsnap⟩
      | setHardState st =>
        obtain rfl := Except.ok.inj hs
        exact ⟨_,_,h.setHardState hfits.1,by simp [Call.records],rfl⟩
      | applySnapshot snap => exact hfits.2.elim
      | sync =>
        obtain rfl := Except.ok.inj hs
        have hm : (s.sync maxSegmentSize).mirror = s.mirror := syncBuffered_mirror ..
        have hsync := h.sync maxSegmentSize
        rw [← hm] at hsync
        exact ⟨_,_,hsync,by simp [Call.records],congrArg (·.snapshot) hm⟩
    rw [Storage.run,written]
    cases hs : s.call maxSegmentSize c with
    | ok s' =>
      obtain ⟨done₁,pend₁,h₁,hrecs₁,hsnap₁⟩ := hstep s' hs
      obtain ⟨done',pend',h',hrecs,hsnap⟩ := ih h₁ hcs
      exact ⟨done',pend',h',by rw [hrecs,hrecs₁]; simp,hsnap.trans hsnap₁⟩
    | error err => exact ih h hcs

theorem run_synced (h : s.Backed flag done pend s.mirror.entries) {cs : List Call}
    (hc : ∀ c ∈ cs, c.Fits ∧ c.Appends) :
    (s.run maxSegmentSize (cs ++ [.sync])).1.Backed flag (done ++ pend ++ s.written maxSegmentSize cs) []
        (s.run maxSegmentSize (cs ++ [.sync])).1.mirror.entries ∧
      (s.run maxSegmentSize (cs ++ [.sync])).1.mirror.snapshot = s.mirror.snapshot := by
  obtain ⟨done',pend',h',hrecs,hsnap⟩ := h.run_appends maxSegmentSize hc
  have hrun : (s.run maxSegmentSize (cs ++ [.sync])).1 = (s.run maxSegmentSize cs).1.sync maxSegmentSize :=
    Storage.run_append ..
  have hm : ((s.run maxSegmentSize cs).1.sync maxSegmentSize).mirror = (s.run maxSegmentSize cs).1.mirror :=
    syncBuffered_mirror ..
  rw [hrun,hm]
  exact ⟨hrecs ▸ h'.sync maxSegmentSize,hsnap⟩

theorem segs_bytes (h : s.Backed flag done pend es) : s.dir.segs.flatMap (·.2) = bytes done := by
  obtain ⟨files,last,hl,rfl⟩ := h.laid
  rw [hl.segs]
  have : ∀ fs : List (Nat × List Record), (fs.map fun f => (f.1,bytes f.2)).flatMap (·.2) = bytes (fs.flatMap (·.2)) := by
    intro fs
    induction fs with
    | nil => rfl
    | cons f fs ih => simp [ih]
  simp [this]

end Storage.Backed

/-- A tear inside the last segment. The whole records in front of it are recovered, the file is
cut there, earlier segments stay, and the records that later calls append and sync are found behind
them. -/
theorem torn_tail (maxSegmentSize : Nat) (files : List (Nat × List Record)) (seq : Nat) (last : List Record) {m : Mirror}
    {k : Nat} (hasc : (files.map (·.1) ++ [seq]).Pairwise (· < ·))
    (hfits : ∀ r ∈ files.flatMap (·.2) ++ last, r.Fits)
    (hm : feed Mirror.redo {} (files.flatMap (·.2) ++ last) = some m) (hk : k < (bytes last).length) :
    ∃ j m₁, (bytes (last.take j)).length ≤ k ∧ k < (bytes (last.take (j + 1))).length ∧
      feed Mirror.redo {} (files.flatMap (·.2) ++ last.take j) = some m₁ ∧
      let earlier := files.map fun f => (f.1,bytes f.2)
      let s := openDir maxSegmentSize { segs := earlier ++ [(seq,(bytes last).take k)] }
      s.mirror = m₁ ∧ s.dir = { segs := earlier ++ [(seq,bytes (last.take j))] } ∧
        ∀ cs : List Call, (∀ c ∈ cs, c.Fits ∧ c.Appends) →
          let s' := (s.run maxSegmentSize (cs ++ [.sync])).1
          let new := s.written maxSegmentSize cs
          s'.dir.segs.flatMap (·.2) = bytes (files.flatMap (·.2) ++ last.take j ++ new) ∧
            feed Mirror.redo m₁ new = some s'.mirror ∧ (openDir maxSegmentSize s'.dir).mirror = s'.mirror := by
  have hlast : ∀ r ∈ last, r.Fits := fun r hr => hfits r (List.mem_append_right _ hr)
  obtain ⟨j,t,hj,ht,htake,hnext⟩ := bytes_take hlast k
  have hlen := congrArg List.length htake
  rw [List.length_take,Nat.min_eq_left (Nat.le_of_lt hk),List.length_append] at hlen
  have hjl : j < last.length := by
    by_contra hge
    rw [List.take_of_length_le (Nat.not_lt.mp hge)] at hlen
    omega
  have hfront := hm
  rw [← List.take_append_drop j last,← List.append_assoc,feed_append] at hfront
  obtain ⟨m₁,hm₁,-⟩ := Option.bind_eq_some_iff.mp hfront
  obtain ⟨es,hes,rfl⟩ : ∃ es, logOf 0 (files.flatMap (·.2) ++ last.take j) = some es ∧
      { hardState := hardOf (files.flatMap (·.2) ++ last.take j), entries := es } = m₁ := by
    rw [Mirror.feed_redo,Option.map_eq_some_iff] at hm₁
    exact hm₁
  have hl : Laid { segs := files.map (fun f => (f.1,bytes f.2)) ++ [(seq,(bytes last).take k)] } files seq (last.take j) t := by
    refine ⟨by rw [htake],hasc,ht,fun r hr => hfits r ?_⟩
    exact (List.mem_append.mp hr).elim (List.mem_append_left _)
      (fun hr => List.mem_append_right _ (List.mem_of_mem_take hr))
  have hn : Newest { segs := files.map (fun f => (f.1,bytes f.2)) ++ [(seq,(bytes last).take k)] } {} false :=
    .of_nil rfl
  have hr : Readable _ _ _ _ es := ⟨⟨files,seq,_,t,hl,rfl⟩,hn,⟨by decide,by decide⟩,hes⟩
  obtain ⟨hb,hmirror,-⟩ := hr.openDir_marked (by simp) maxSegmentSize
  refine ⟨j,_,by omega,hnext hjl,hm₁,hmirror,?_,?_⟩
  · have hload := Readable.loadDir_laid hl hn.load hes
    simp only [openDir,hload,Readable.replayed,Bool.false_and]
    rfl
  intro cs hcs s' new
  rw [show es = _ from (congrArg (·.entries) hmirror).symm] at hb
  obtain ⟨h',hsnap⟩ := hb.run_synced maxSegmentSize hcs
  have hsnap : s'.mirror.snapshot = {} := hsnap.trans (congrArg (·.snapshot) hmirror)
  rw [List.append_nil] at h'
  refine ⟨h'.segs_bytes,?_,h'.reopen maxSegmentSize⟩
  -- The survivors and the new records together replay to the mirror.
  have hall : feed Mirror.redo {} (files.flatMap (·.2) ++ last.take j ++ new) = some s'.mirror := by
    have hlog := h'.log
    have hhard := h'.hard
    rw [Storage.offset,hsnap,List.append_nil] at hlog
    rw [List.append_nil] at hhard
    rw [Mirror.feed_redo]
    refine (congrArg (Option.map _) hlog).trans ?_
    simp only [Option.map_some,Bool.false_and,Option.some.injEq]
    rw [← h'.settled,← hsnap]
    exact congrArg (fun st => { s'.mirror with hardState := st }) hhard.symm
  rw [feed_append,hm₁,Option.bind_some] at hall
  exact hall

/-- A segment of one entry and one of two, cut inside its second record. -/
def cutSecond : Dir :=
  { segs := [(1,bytes [.entry { term := 1, index := 1 }]),
      (2,(bytes [.entry { term := 1, index := 2 },.entry { term := 1, index := 3 }]).take 40)] }

/-- A new third entry and a hard state; a batch behind a gap is refused. -/
def resuming : List Call :=
  [.appendEntries [{ term := 2, index := 3 }],.setHardState { term := 2 },.appendEntries [{ term := 2, index := 9 }]]

theorem torn_tail_second :
    (openDir 0 cutSecond).mirror.entries = [{ term := 1, index := 1 },{ term := 1, index := 2 }] ∧
      (openDir 0 cutSecond).dir =
        { segs := [(1,bytes [.entry { term := 1, index := 1 }]),(2,bytes [.entry { term := 1, index := 2 }])] } ∧
      let s' := ((openDir 0 cutSecond).run 0 (resuming ++ [.sync])).1
      s'.dir.segs.flatMap (·.2) = bytes [.entry { term := 1, index := 1 },.entry { term := 1, index := 2 },
        .entry { term := 2, index := 3 },.hardState { term := 2 }] ∧
      (openDir 0 s'.dir).mirror = s'.mirror := by
  obtain ⟨j,m₁,hlow,hhigh,hm₁,hm,hdir,hnew⟩ := torn_tail 0 [(1,[.entry { term := 1, index := 1 }])] 2
    [.entry { term := 1, index := 2 },.entry { term := 1, index := 3 }] (k := 40) (by decide) (by decide) rfl (by decide)
  obtain rfl : j = 1 := by
    match j with
    | 0 => exact absurd hhigh (by decide)
    | 1 => rfl
    | j + 2 => exact absurd hlow (by rw [List.take_of_length_le (by simp)]; decide)
  have hcut : ({ segs := [(1,[Record.entry { term := 1, index := 1 }])].map (fun f => (f.1,bytes f.2)) ++
      [(2,(bytes [.entry { term := 1, index := 2 },.entry { term := 1, index := 3 }]).take 40)] } : Dir) = cutSecond := rfl
  have hwritten : (openDir 0 cutSecond).written 0 resuming = [.entry { term := 2, index := 3 },.hardState { term := 2 }] := by
    decide +kernel
  have hnew := hnew resuming (by decide)
  simp only [hcut,hwritten] at hm hdir hnew
  refine ⟨?_,hdir,hnew.1,hnew.2.2⟩
  rw [hm,← Option.some.inj hm₁]
  rfl

end Parallax.Disk
