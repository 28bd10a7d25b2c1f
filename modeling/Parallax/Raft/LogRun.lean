import Parallax.Raft.LogList

/-! Runs of the log: the operations of the core and of the driver on it, and the list operation that each of them is. -/
namespace Parallax

/-- `persist` writes all that is pending and acknowledges it. `snapshot` is the driver's
compaction at an applied index, `compact` the storage's own. -/
inductive LogOp
  | append (ents : List Entry)
  | restore (snap : Snapshot)
  | commitTo (i : Nat)
  | appliedTo (i : Nat)
  | persist
  | snapshot (i : Nat) (data : Bytes)
  | compact (i : Nat)
  deriving DecidableEq, Repr

namespace LogList

def step (a : LogList) : LogOp → LogList
  | .append ents => a.append ents
  | .restore snap => a.restore snap.metadata
  | .commitTo i => a.commitTo i
  | .appliedTo i => a.appliedTo i
  | .persist => a
  | .snapshot i _ | .compact i => a.compact i

/-- The arguments for which the watermarks do not panic. -/
def InRange (a : LogList) : LogOp → Prop
  | .commitTo i => i ≤ a.lastIndex
  | .appliedTo i => i = 0 ∨ a.applied ≤ i ∧ i ≤ a.committed
  | _ => True

/-- All calls of a run are in range. -/
def Fits : LogList → List LogOp → Prop
  | _, [] => True
  | a, op :: ops => a.InRange op ∧ (a.step op).Fits ops

end LogList

/-- Storage as a list above its snapshot. -/
def Storage.list (s : Storage) : LogList :=
  { boundary := s.snapshot.metadata, entries := s.entries, committed := s.offset, applied := s.offset }

structure Storage.WF (s : Storage) : Prop where
  indexed : IndexedFrom s.offset s.entries
  origin : s.offset = 0 → s.snapshot.metadata.term = 0

namespace RaftLog

/-- The driver's round: the pending snapshot and entries go to storage, then `stableTo` and
`stableSnapTo` acknowledge them. -/
def persist (l : RaftLog) : Except StorageErr RaftLog :=
  match l.unstable.snapshot.elim (.ok l.storage) l.storage.applySnapshot with
  | .error e => .error e
  | .ok s =>
    match s.appendEntries l.unstable.entries with
    | .error e => .error e
    | .ok s =>
      let stable := l.unstable.entries.getLast?.elim { l with storage := s } fun last =>
        ({ l with storage := s } : RaftLog).stableTo last.index last.term
      .ok (l.unstable.snapshot.elim stable fun snap => stable.stableSnapTo snap.metadata.index)

/-- The driver's compaction: a snapshot at `i`, with the stored term. A refusal changes nothing. -/
def snapshot (l : RaftLog) (i : Nat) (data : Bytes) : RaftLog :=
  match l.storage.term i with
  | .error _ => l
  | .ok t =>
    match l.storage.applySnapshot { metadata := { index := i, term := t }, data := data } with
    | .error _ => l
    | .ok s => { l with storage := s }

def compact (l : RaftLog) (i : Nat) : RaftLog :=
  match l.storage.compact i with
  | .error _ => l
  | .ok s => { l with storage := s }

def step (l : RaftLog) : LogOp → Except StorageErr RaftLog
  | .append ents => .ok (l.append ents)
  | .restore snap => .ok (l.restore snap)
  | .commitTo i => .ok (l.commitTo i)
  | .appliedTo i => .ok (l.appliedTo i)
  | .persist => l.persist
  | .snapshot i data => .ok (l.snapshot i data)
  | .compact i => .ok (l.compact i)

def run : RaftLog → List LogOp → Except StorageErr RaftLog
  | l, [] => .ok l
  | l, op :: ops =>
    match l.step op with
    | .error e => .error e
    | .ok l' => l'.run ops

instance (l : RaftLog) : Decidable l.Clean := inferInstanceAs (Decidable (_ ∧ _))

/-- A batch that starts between the commit index and the end of the log. -/
def Continues (l : RaftLog) : List Entry → Prop
  | [] => True
  | e :: es => l.committed + 1 ≤ e.index ∧ e.index ≤ l.lastIndex + 1 ∧ IndexedFrom (e.index - 1) (e :: es)

/-- What the callers of the log guarantee. A restore or a compaction finds nothing pending. -/
def Enabled (l : RaftLog) : LogOp → Prop
  | .append ents => l.Continues ents
  | .restore snap => l.committed < snap.metadata.index ∧
      ¬ l.list.Has snap.metadata.index snap.metadata.term ∧ l.Clean
  | .snapshot i _ | .compact i => i ≤ l.applied ∧ l.Clean
  | .commitTo _ | .appliedTo _ | .persist => True

def Allowed : RaftLog → List LogOp → Prop
  | _, [] => True
  | l, op :: ops => l.Enabled op ∧
    match l.step op with
    | .error _ => True
    | .ok l' => l'.Allowed ops

instance (l : RaftLog) : (ents : List Entry) → Decidable (l.Continues ents)
  | [] => isTrue trivial
  | _ :: _ => inferInstanceAs (Decidable (_ ∧ _))

instance (l : RaftLog) : (op : LogOp) → Decidable (l.Enabled op)
  | .append ents => inferInstanceAs (Decidable (l.Continues ents))
  | .restore _ | .snapshot _ _ | .compact _ => inferInstanceAs (Decidable (_ ∧ _))
  | .commitTo _ | .appliedTo _ | .persist => isTrue trivial

instance decidableAllowed : (ops : List LogOp) → (l : RaftLog) → Decidable (l.Allowed ops)
  | [], _ => isTrue trivial
  | op :: ops, l =>
    haveI : Decidable (match l.step op with | .error _ => True | .ok l' => l'.Allowed ops) :=
      match l.step op with
      | .error _ => isTrue trivial
      | .ok l' => decidableAllowed ops l'
    inferInstanceAs (Decidable (_ ∧ _))

/-- The invariant of the runs. A pending snapshot is one that storage lacks. -/
structure Sound (l : RaftLog) : Prop where
  wf : l.WF
  pending : ∀ snap, l.unstable.snapshot = some snap →
    l.storage.applySnapshot snap = .ok { l.storage with snapshot := snap, entries := [] }
  base_le : l.base.index ≤ l.applied
  applied_le : l.applied ≤ l.committed
  committed_le : l.committed ≤ l.list.lastIndex

/-- One operation is the list's operation, and panics only out of range. -/
structure Performs (l : RaftLog) (op : LogOp) (l' : RaftLog) : Prop where
  sound : l'.Sound
  list : l'.list = l.list.step op
  panicked : l.list.InRange op → l'.panicked = l.panicked

variable {l : RaftLog}

theorem Sound.append (h : l.Sound) {ents : List Entry} (hc : l.Continues ents) :
    l.Performs (.append ents) (l.append ents) := by
  cases ents with
  | nil => exact ⟨h,rfl,fun _ => rfl⟩
  | cons e es =>
    obtain ⟨hlo,hhi,hidx⟩ := hc
    obtain ⟨xs,hr⟩ := h.wf.repr
    have h1 := h.base_le
    have h2 := h.applied_le
    have h3 := h.committed_le
    rw [hr.lastIndex] at hhi
    rw [hr.list_lastIndex] at h3
    obtain ⟨hr',hp,hsn⟩ := hr.append (k := e.index - 1) (by omega) (by omega) hidx (by simp)
    have hbase : (l.append (e :: es)).base = l.base := by
      unfold RaftLog.base
      rw [hsn,append_storage]
    have hview : (l.append (e :: es)).view = l.view.take (e.index - 1 - l.base.index) ++ e :: es := by
      rw [hr'.view,hbase,drop_splice (by omega) (by omega),hr.view]
    refine ⟨⟨hr'.wf,?_,?_,?_,?_⟩,?_,fun _ => hp⟩
    · rw [hsn,append_storage]
      exact h.pending
    · rw [hbase,append_applied]
      exact h1
    · rw [append_applied,append_committed]
      exact h2
    · rw [hr'.list_lastIndex,append_committed,List.length_append,List.length_take,List.length_cons]
      omega
    unfold RaftLog.list LogList.step LogList.append
    simp only [hbase,hview,append_committed,append_applied,LogList.firstIndex]
    rw [Nat.sub_sub,Nat.add_comm 1]

theorem Sound.restore (h : l.Sound) {snap : Snapshot} (hlo : l.committed < snap.metadata.index)
    (hno : ¬ l.list.Has snap.metadata.index snap.metadata.term) (hc : l.Clean) :
    l.Performs (.restore snap) (l.restore snap) := by
  obtain ⟨xs,hr⟩ := h.wf.repr
  have h1 := h.base_le
  have h2 := h.applied_le
  have hbase : l.storage.offset = l.base.index := by
    unfold RaftLog.base
    rw [hc.1]
    rfl
  have happ : (l.restore snap).applied = snap.metadata.index := if_pos (by omega)
  refine ⟨⟨⟨⟨?_,?_,?_,?_⟩,IndexedFrom.nil _,?_⟩,?_,?_,?_,?_⟩,?_,fun _ => rfl⟩
  · rintro s hs
    obtain rfl : snap = s := by simpa [RaftLog.restore,Unstable.restore] using hs
    rfl
  · simp [RaftLog.restore,Unstable.restore]
  · simp [RaftLog.restore,Unstable.restore]
  · simp [RaftLog.restore,Unstable.restore]
  · intro h0
    change snap.metadata.index = 0 at h0
    omega
  · rintro s hs
    obtain rfl : snap = s := by simpa [RaftLog.restore,Unstable.restore] using hs
    apply (hr.storage hc).applySnapshot_empties (by omega)
    rw [← hr.has_iff (by omega)]
    exact hno
  · rw [happ]
    exact Nat.le_refl _
  · rw [happ]
    exact Nat.le_refl _
  · exact Nat.le_refl _
  unfold RaftLog.list
  rw [happ]
  unfold LogList.step LogList.restore
  simp only
  rw [Nat.max_eq_right (by omega)]
  rfl

private theorem list_commitTo (h : l.Sound) (i : Nat) : (l.commitTo i).list = l.list.commitTo i := by
  obtain ⟨xs,hr⟩ := h.wf.repr
  have h3 := h.committed_le
  have hlast : l.lastIndex = l.list.lastIndex := by rw [hr.lastIndex,hr.list_lastIndex]
  unfold RaftLog.commitTo LogList.commitTo
  rw [hlast]
  by_cases hi : i ≤ l.list.lastIndex
  · rw [if_pos hi,if_neg (by omega : ¬ i > l.list.lastIndex)]
    change _ = { l.list with committed := max l.committed i }
    split
    · rw [Nat.max_eq_right (by omega)]
      rfl
    · rw [Nat.max_eq_left (by omega)]
      rfl
  · rw [if_neg hi,if_pos (by omega),if_pos (by omega)]
    rfl

theorem Sound.marks (h : l.Sound) {l' : RaftLog} (hs : l'.storage = l.storage) (hu : l'.unstable = l.unstable)
    (h1 : l.base.index ≤ l'.applied) (h2 : l'.applied ≤ l'.committed) (h3 : l'.committed ≤ l.list.lastIndex) :
    l'.Sound := by
  obtain ⟨xs,hr⟩ := h.wf.repr
  have hr' := hr.congr hs hu
  have hb : l'.base = l.base := by simp only [RaftLog.base,hs,hu]
  refine ⟨hr'.wf,by rw [hs,hu]; exact h.pending,by rw [hb]; exact h1,h2,?_⟩
  rw [hr'.list_lastIndex,← hr.list_lastIndex]
  exact h3

theorem Sound.commitTo (h : l.Sound) (i : Nat) : l.Performs (.commitTo i) (l.commitTo i) := by
  have hlist := list_commitTo h i
  have hc : (l.commitTo i).committed = (l.list.commitTo i).committed := congrArg LogList.committed hlist
  have h2 := h.applied_le
  have h3 := h.committed_le
  obtain ⟨xs,hr⟩ := h.wf.repr
  refine ⟨h.marks (by simp) (by simp) (by simpa using h.base_le) ?_ ?_,hlist,fun hin => ?_⟩
  · rw [hc,commitTo_applied]
    unfold LogList.commitTo
    split
    · exact Nat.le_trans h2 (Nat.le_max_left _ _)
    · exact h2
  · rw [hc]
    unfold LogList.commitTo
    split
    · exact Nat.max_le.mpr ⟨h3,by assumption⟩
    · exact h3
  change i ≤ l.list.lastIndex at hin
  rw [hr.list_lastIndex] at hin
  exact (hr.commitTo_eq hin).2

theorem Sound.appliedTo (h : l.Sound) (i : Nat) : l.Performs (.appliedTo i) (l.appliedTo i) := by
  have h1 := h.base_le
  have h2 := h.applied_le
  have h3 := h.committed_le
  change l.Performs (.appliedTo i) (if i = 0 then l else if l.committed < i ∨ i < l.applied then
    l.panic .appliedOutOfRange else { l with applied := i })
  by_cases hin : l.applied ≤ i ∧ i ≤ l.committed
  · have hlist : l.list.step (.appliedTo i) = { l.list with applied := i } := if_pos hin
    have heq : (if i = 0 then l else if l.committed < i ∨ i < l.applied then
        l.panic .appliedOutOfRange else { l with applied := i }) = { l with applied := i } := by
      split
      · have : l.applied = i := by omega
        subst this
        rfl
      · exact if_neg (by omega)
    rw [heq]
    exact ⟨h.marks rfl rfl (by simp only; omega) hin.2 h3,hlist ▸ rfl,fun _ => rfl⟩
  have hlist : l.list.step (.appliedTo i) = l.list := if_neg hin
  split
  · exact ⟨h,hlist.symm,fun _ => rfl⟩
  rename_i hne
  rw [if_pos (by omega)]
  refine ⟨h.marks rfl rfl h1 h2 h3,hlist.symm,fun hr => ?_⟩
  rcases hr with h0 | hr
  · exact absurd h0 hne
  · exact absurd hr hin

theorem Repr.list_of_storage {xs : List Entry} (h : l.storage.Repr xs)
    (hu : l.unstable = { offset := xs.length + 1 }) :
    l.list = { boundary := l.storage.snapshot.metadata, entries := xs.drop l.storage.offset,
               committed := l.committed, applied := l.applied } := by
  have hr := RaftLog.Repr.of_storage h hu
  have hb : l.base = l.storage.snapshot.metadata := by simp [RaftLog.base,hu]
  unfold RaftLog.list
  rw [hr.view,hb]
  rfl

theorem Sound.persist (h : l.Sound) : ∃ l', l.persist = .ok l' ∧ l.Performs .persist l' := by
  obtain ⟨xs,hr⟩ := h.wf.repr
  obtain ⟨s₁,s₂,hs₁,hs₂,hrep,hsn,_⟩ := hr.persisted h.pending
  have hbase : s₂.snapshot.metadata = l.base := by
    rw [hsn]
    unfold RaftLog.base
    cases l.unstable.snapshot <;> rfl
  refine ⟨{ l with storage := s₂, unstable := { offset := xs.length + 1 } },?_,?_⟩
  · unfold RaftLog.persist
    simp only [hs₁,hs₂]
    rw [hr.acknowledged]
  have hlist : ({ l with storage := s₂, unstable := { offset := xs.length + 1 } } : RaftLog).list = l.list := by
    rw [Repr.list_of_storage hrep rfl]
    unfold RaftLog.list Storage.offset
    rw [hbase,hr.view]
  have hwf : ({ l with storage := s₂, unstable := { offset := xs.length + 1 } } : RaftLog).WF :=
    (RaftLog.Repr.of_storage hrep rfl).wf
  refine ⟨⟨hwf,by simp,?_,h.applied_le,?_⟩,hlist,fun _ => rfl⟩
  · have : ({ l with storage := s₂, unstable := { offset := xs.length + 1 } } : RaftLog).base = l.base :=
      congrArg LogList.boundary hlist
    rw [this]
    exact h.base_le
  · rw [hlist]
    exact h.committed_le

theorem Sound.compacted (h : l.Sound) (hc : l.Clean) {xs : List Entry} (hr : l.Repr xs) {s : Storage} {i : Nat}
    (hlo : l.base.index < i) (hi : i ≤ l.applied) (hm : s.snapshot.metadata = ⟨i,termAt xs i⟩) (hs : s.Repr xs) :
    ({ l with storage := s } : RaftLog).Sound ∧ ({ l with storage := s } : RaftLog).list = l.list.compact i := by
  have h2 := h.applied_le
  have h3 := h.committed_le
  rw [hr.list_lastIndex] at h3
  have hu : l.unstable = { offset := xs.length + 1 } := by
    obtain ⟨hsn,he⟩ := hc
    have ho := hr.split.2.1
    rw [he,List.length_nil,Nat.add_zero] at ho
    rw [← ho,← hsn,← he]
  have hr' : ({ l with storage := s } : RaftLog).Repr xs := RaftLog.Repr.of_storage hs hu
  have hb : ({ l with storage := s } : RaftLog).base = ⟨i,termAt xs i⟩ := by
    unfold RaftLog.base
    simp only [hc.1,hm]
  refine ⟨⟨hr'.wf,by simp [hc.1],by rw [hb]; exact hi,h2,by rw [hr'.list_lastIndex]; exact h3⟩,?_⟩
  have ht := hr.term? (i := i) (by omega)
  rw [if_pos (by omega)] at ht
  have hcompact : l.list.compact i = { boundary := ⟨i,termAt xs i⟩, entries := xs.drop i, committed := l.committed,
                                       applied := l.applied } := by
    unfold LogList.compact
    rw [if_pos (show l.list.boundary.index < i from hlo),ht]
    change ({ boundary := _, entries := l.view.drop (i - l.base.index), committed := _, applied := _ } : LogList) = _
    rw [hr.view,List.drop_drop,show l.base.index + (i - l.base.index) = i by omega]
    rfl
  have hlist := Repr.list_of_storage (l := { l with storage := s }) hs hu
  simp only [Storage.offset,hm] at hlist
  rw [hlist,hcompact]

theorem Sound.snapshot (h : l.Sound) {i : Nat} (data : Bytes) (hi : i ≤ l.applied) (hc : l.Clean) :
    l.Performs (.snapshot i data) (l.snapshot i data) := by
  obtain ⟨xs,hr⟩ := h.wf.repr
  have h2 := h.applied_le
  have h3 := h.committed_le
  rw [hr.list_lastIndex] at h3
  have hst := hr.storage hc
  have hoff : l.storage.offset = l.base.index := by simp only [RaftLog.base,hc.1,Storage.offset]
  unfold RaftLog.snapshot
  by_cases hlo : l.base.index < i
  · obtain ⟨es,hes,hrep⟩ := hst.applySnapshot_own { metadata := ⟨i,termAt xs i⟩, data := data } (by simp only; omega)
      (by simp only; omega) rfl
    obtain ⟨hsd,hlist⟩ := h.compacted hc hr hlo hi rfl hrep
    rw [hst.term_eq (by omega) (by omega)]
    simp only [hes]
    exact ⟨hsd,hlist,fun _ => rfl⟩
  have hlist : l.list.step (.snapshot i data) = l.list := if_neg hlo
  -- At or below the boundary the term or the snapshot is refused.
  have hrefuse : ∀ snap : Snapshot, snap.metadata.index = i → l.storage.applySnapshot snap = .error .compacted := by
    intro snap hsi
    exact if_pos (by omega)
  cases ht : l.storage.term i with
  | error e => exact ⟨h,hlist.symm,fun _ => rfl⟩
  | ok t =>
    simp only [hrefuse { metadata := ⟨i,t⟩, data := data } rfl]
    exact ⟨h,hlist.symm,fun _ => rfl⟩

theorem Sound.compact (h : l.Sound) {i : Nat} (hi : i ≤ l.applied) (hc : l.Clean) :
    l.Performs (.compact i) (l.compact i) := by
  obtain ⟨xs,hr⟩ := h.wf.repr
  have h2 := h.applied_le
  have h3 := h.committed_le
  rw [hr.list_lastIndex] at h3
  have hst := hr.storage hc
  have hoff : l.storage.offset = l.base.index := by simp only [RaftLog.base,hc.1,Storage.offset]
  have hlen : l.storage.entries.length = xs.length - l.base.index := by rw [hst.entries,List.length_drop,hoff]
  unfold RaftLog.compact Storage.compact
  by_cases hlo : l.base.index < i
  · obtain ⟨j,rfl⟩ : ∃ j, i = l.base.index + 1 + j := ⟨i - l.base.index - 1,by omega⟩
    obtain ⟨e,he⟩ : ∃ e, xs[l.base.index + j]? = some e := ⟨_,List.getElem?_eq_getElem (by omega)⟩
    have hget : l.storage.entries[l.base.index + 1 + j - l.storage.offset - 1]? = some e := by
      rw [hst.entries,List.getElem?_drop,hoff,← he]
      congr 1
      omega
    have hterm : termAt xs (l.base.index + 1 + j) = e.term := by
      rw [show l.base.index + 1 + j = (l.base.index + j) + 1 by omega,termAt_succ_of_getElem? he]
    rw [if_neg (by omega),if_neg (by omega),hget]
    obtain ⟨hsd,hlist⟩ := h.compacted hc hr hlo hi (s := { l.storage with
      entries := l.storage.entries.drop (l.base.index + 1 + j - l.storage.offset)
      snapshot := { l.storage.snapshot with metadata := { index := l.base.index + 1 + j, term := e.term } } })
      (by rw [hterm]) ⟨by change l.base.index + 1 + j ≤ _; omega,by
        change List.drop _ l.storage.entries = List.drop (l.base.index + 1 + j) xs
        rw [hst.entries,List.drop_drop]
        congr 1
        omega,hterm.symm,hr.indexed⟩
    exact ⟨hsd,hlist,fun _ => rfl⟩
  have hlist : l.list.step (.compact i) = l.list := if_neg hlo
  rw [if_pos (by omega)]
  exact ⟨h,hlist.symm,fun _ => rfl⟩

theorem Sound.step (h : l.Sound) {op : LogOp} (he : l.Enabled op) : ∃ l', l.step op = .ok l' ∧ l.Performs op l' := by
  cases op with
  | append ents => exact ⟨_,rfl,h.append he⟩
  | restore snap => exact ⟨_,rfl,h.restore he.1 he.2.1 he.2.2⟩
  | commitTo i => exact ⟨_,rfl,h.commitTo i⟩
  | appliedTo i => exact ⟨_,rfl,h.appliedTo i⟩
  | persist => exact h.persist
  | snapshot i data => exact ⟨_,rfl,h.snapshot data he.1 he.2⟩
  | compact i => exact ⟨_,rfl,h.compact he.1 he.2⟩

theorem Sound.run (ops : List LogOp) : ∀ {l : RaftLog}, l.Sound → l.Allowed ops →
    ∃ l', l.run ops = .ok l' ∧ l'.Sound ∧ l'.list = ops.foldl LogList.step l.list ∧
      (l.list.Fits ops → l'.panicked = l.panicked) := by
  induction ops with
  | nil => exact fun h _ => ⟨_,rfl,h,rfl,fun _ => rfl⟩
  | cons op ops ih =>
    intro l h ha
    obtain ⟨l₁,hstep,hp⟩ := h.step ha.1
    have hrest := ha.2
    rw [hstep] at hrest
    obtain ⟨l₂,hrun,hs₂,hl₂,hp₂⟩ := ih hp.sound hrest
    refine ⟨l₂,by simp only [RaftLog.run,hstep,hrun],hs₂,by rw [hl₂,hp.list]; rfl,fun hf => ?_⟩
    rw [hp₂ (hp.list ▸ hf.2),hp.panicked hf.1]

private theorem newLog_sound {s : Storage} (h : s.WF) : (newLog s).Sound ∧ (newLog s).list = s.list := by
  have hview : (newLog s).view = s.entries := by
    unfold RaftLog.view newLog
    simp only [List.append_nil]
    apply List.take_of_length_le
    unfold Storage.lastIndex
    omega
  have hmark : s.firstIndex - 1 = s.offset := Nat.add_sub_cancel _ _
  have hlist : (newLog s).list = s.list := by
    unfold RaftLog.list Storage.list
    rw [hview]
    change ({ boundary := s.snapshot.metadata, entries := s.entries, committed := s.firstIndex - 1,
              applied := s.firstIndex - 1 } : LogList) = _
    rw [hmark]
  refine ⟨⟨⟨⟨by simp [newLog],fun _ => ?_,fun _ => Nat.le_refl _,fun _ _ => rfl⟩,?_,h.origin⟩,by simp [newLog],?_,
    Nat.le_refl _,?_⟩,hlist⟩
  · change s.offset < s.lastIndex + 1
    unfold Storage.lastIndex
    omega
  · rw [hview]
    exact h.indexed
  · change s.offset ≤ s.firstIndex - 1
    rw [hmark]
  rw [hlist]
  change s.firstIndex - 1 ≤ s.offset + s.entries.length
  omega

/-- Whatever the core and the driver do to a log, it answers as one list of entries above one
boundary does; its unstable entries are at their offset and its watermarks in order. -/
theorem run_refines_list (s : Storage) (hs : s.WF) (ops : List LogOp) (ha : (newLog s).Allowed ops) :
    ∃ l, (newLog s).run ops = .ok l ∧ l.Answers (ops.foldl LogList.step s.list) ∧
      (∀ i e, l.unstable.entries[i]? = some e → e.index = l.unstable.offset + i) ∧
      l.firstIndex - 1 ≤ l.applied ∧ l.applied ≤ l.committed ∧ l.committed ≤ l.lastIndex ∧
      (s.list.Fits ops → l.panicked = none) := by
  obtain ⟨hsound,hlist⟩ := newLog_sound hs
  obtain ⟨l,hrun,h,hl,hp⟩ := hsound.run ops ha
  rw [hlist] at hl hp
  obtain ⟨xs,hr⟩ := h.wf.repr
  refine ⟨l,hrun,hl ▸ h.wf.answers,fun i e he => ?_,?_,h.applied_le,?_,hp⟩
  · have := hr.split.1
    rw [hr.unstable_indexed i e he]
    omega
  · rw [hr.firstIndex]
    exact h.base_le
  · rw [hr.lastIndex,← hr.list_lastIndex]
    exact h.committed_le

/-- Entries are appended, replaced and compacted, and a snapshot replaces the rest. -/
def turnover : List LogOp :=
  [.append [{ term := 1, index := 1 }, { term := 1, index := 2 }, { term := 1, index := 3 }], .commitTo 2, .persist,
    .appliedTo 1, .append [{ term := 2, index := 3 }], .persist, .snapshot 1 [], .appliedTo 2, .compact 2,
    .restore { metadata := ⟨5,2⟩ }, .append [{ term := 3, index := 6 }], .commitTo 6]

theorem run_refines_list_turnover : (newLog {}).Allowed turnover ∧ ∃ l, (newLog {}).run turnover = .ok l ∧
    l.Answers { boundary := ⟨5,2⟩, entries := [{ term := 3, index := 6 }], committed := 6, applied := 5 } := by
  have ha : (newLog {}).Allowed turnover := by decide
  obtain ⟨l,hrun,hans,-⟩ := run_refines_list {} ⟨by decide,fun _ => rfl⟩ turnover ha
  exact ⟨ha,l,hrun,hans⟩

/-- Three entries that wait to be persisted. -/
def pending : List LogOp :=
  [.append [{ term := 1, index := 1 }, { term := 1, index := 2 }, { term := 1, index := 3 }]]

/-- A range that starts beyond the next index is not answered: its end is moved back before its start. -/
theorem slice_beyond_end_panics : ¬ ∀ s : Storage, s.WF → ∀ ops, (newLog s).Allowed ops → ∀ l, (newLog s).run ops = .ok l →
    ∀ lo hi, l.firstIndex ≤ lo → lo ≤ hi → l.slice lo hi = .ok ((ops.foldl LogList.step s.list).slice lo hi) := by
  intro hall
  obtain ⟨l,hrun⟩ : ∃ l, (newLog {}).run pending = .ok l := ⟨_,rfl⟩
  have hslice : l.slice 5 6 = .error .outOfRange := by
    obtain rfl := Except.ok.inj hrun
    decide
  have hfirst : l.firstIndex ≤ 5 := by
    obtain rfl := Except.ok.inj hrun
    decide
  have hans := hall {} ⟨by decide,fun _ => rfl⟩ pending (by decide) l hrun 5 6 hfirst (by decide)
  rw [hslice] at hans
  cases hans

end RaftLog
end Parallax
