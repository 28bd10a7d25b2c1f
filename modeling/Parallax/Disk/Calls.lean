import Parallax.Disk.Replay

/-! The write calls of `LogStorage`, on mem.Storage and on disk.Storage. The mirror of the disk
storage is a memory storage, call by call. -/
namespace Parallax

inductive Disk.Call where
  | appendEntries (entries : List Entry)
  | setHardState (st : HardState)
  | applySnapshot (snap : Snapshot)
  | sync
  deriving DecidableEq, Repr

/-- Batches are index-contiguous. -/
def Disk.Call.Contiguous : Call → Prop
  | .appendEntries entries => Disk.Contiguous entries
  | _ => True

instance : (c : Disk.Call) → Decidable c.Contiguous
  | .appendEntries entries => inferInstanceAs (Decidable (Disk.Contiguous entries))
  | .setHardState _ | .applySnapshot _ | .sync => isTrue trivial

/-- The part of a batch above `off`, if there is any. -/
def Disk.above (off : Nat) (es : List Entry) : Option (List Entry) :=
  match es.head?, es.getLast? with
  | some first, some last =>
    if last.index ≤ off then none
    else if first.index ≤ off then some (es.drop (off + 1 - first.index))
    else some es
  | _, _ => none

theorem Disk.Contiguous.above {es es' : List Entry} (h : Contiguous es) {off : Nat} (hes : Disk.above off es = some es') :
    ∃ first rest, es' = first :: rest ∧ first :: rest <:+ es ∧ off < first.index := by
  cases es with
  | nil => simp [Disk.above] at hes
  | cons first rest =>
    have hl : (first :: rest).getLast? = some ((first :: rest).getLast (by simp)) := List.getLast?_eq_some_getLast _
    simp only [Disk.above,hl,List.head?_cons] at hes
    split at hes
    · cases hes
    rename_i hlast
    split at hes
    · -- The batch starts below and reaches above, so the cut falls inside it.
      rename_i hfirst
      rw [List.getLast?_eq_getElem?] at hl
      have hend := h.getElem _ _ hl
      have hlt : off + 1 - first.index < (first :: rest).length := by
        simp only [List.length_cons] at *
        omega
      have hat := h.getElem _ _ (List.getElem?_eq_getElem hlt)
      obtain rfl := Option.some.inj hes
      refine ⟨_,_,List.drop_eq_getElem_cons hlt,?_,by omega⟩
      rw [← List.drop_eq_getElem_cons hlt]
      exact List.drop_suffix _ _
    · exact ⟨first,rest,(Option.some.inj hes).symm,List.suffix_refl _,by omega⟩

namespace Storage
open Disk (Call Contiguous)

def call (s : Storage) : Call → Except StorageErr Storage
  | .appendEntries entries => s.appendEntries entries
  | .setHardState st => .ok (s.setHardState st)
  | .applySnapshot snap => s.applySnapshot snap
  | .sync => .ok s

/-- The storage after the calls, and their errors. A call that fails changes nothing. -/
def run (s : Storage) : List Call → Storage × List (Option StorageErr)
  | [] => (s,[])
  | c :: cs =>
    match s.call c with
    | .ok s => ((s.run cs).1,none :: (s.run cs).2)
    | .error err => ((s.run cs).1,some err :: (s.run cs).2)

/-- The entry at position `k` has index `offset + 1 + k`. -/
def Positioned (s : Storage) : Prop := ∀ k e, s.entries[k]? = some e → e.index = s.offset + 1 + k

private theorem appendEntries_eq (s : Storage) (es : List Entry) :
    s.appendEntries es = match Disk.above s.offset es with
      | none => .ok s
      | some es => s.splice es := by
  unfold appendEntries Disk.above
  cases es.head? with
  | none => rfl
  | some first =>
    cases es.getLast? with
    | none => rfl
    | some last =>
      simp only
      split
      · rfl
      · split <;> rfl

theorem Positioned.call {s s' : Storage} (h : s.Positioned) {c : Call} (hc : c.Contiguous) (hs : s.call c = .ok s') :
    s'.Positioned := by
  cases c with
  | appendEntries es =>
    rw [Storage.call,appendEntries_eq] at hs
    cases ha : Disk.above s.offset es with
    | none =>
      rw [ha] at hs
      exact Except.ok.inj hs ▸ h
    | some es' =>
      obtain ⟨first,rest,rfl,hsuf,hoff⟩ := Disk.Contiguous.above hc ha
      have hcont : Contiguous (first :: rest) := List.IsChain.suffix hc hsuf
      simp only [ha,splice] at hs
      split at hs
      · cases hs
      rename_i hpos
      obtain rfl := Except.ok.inj hs
      intro k e hk
      rcases Nat.lt_or_ge k (first.index - (s.offset + 1)) with hlt | hge
      · rw [List.getElem?_append_left (by rw [List.length_take]; omega),List.getElem?_take_of_lt hlt] at hk
        exact h k e hk
      have hlen : (s.entries.take (first.index - (s.offset + 1))).length = first.index - (s.offset + 1) :=
        List.length_take_of_le (by omega)
      rw [List.getElem?_append_right (by omega)] at hk
      have := hcont.getElem _ e hk
      simp only [Storage.offset] at *
      omega
  | setHardState st =>
    obtain rfl := Except.ok.inj hs
    exact h
  | applySnapshot snap =>
    simp only [Storage.call,applySnapshot] at hs
    split at hs
    · cases hs
    split at hs
    · obtain rfl := Except.ok.inj hs
      intro k e hk
      rw [List.getElem?_drop] at hk
      have := h _ e hk
      simp only [Storage.offset] at *
      omega
    obtain rfl := Except.ok.inj hs
    intro k e hk
    simp at hk
  | sync =>
    obtain rfl := Except.ok.inj hs
    exact h

theorem Positioned.run {s : Storage} (h : s.Positioned) {cs : List Call} (hc : ∀ c ∈ cs, c.Contiguous) :
    (s.run cs).1.Positioned := by
  induction cs generalizing s with
  | nil => exact h
  | cons c cs ih =>
    rw [Storage.run]
    have hcs : ∀ c' ∈ cs, c'.Contiguous := fun c' hc' => hc c' (by simp [hc'])
    cases hs : s.call c with
    | ok s' => exact ih (h.call (hc c (by simp)) hs) hcs
    | error err => exact ih h hcs

theorem Positioned.entriesIn {s : Storage} (h : s.Positioned) {lo hi : Nat} {es : List Entry}
    (hes : s.entriesIn lo hi = .ok es) : ∀ k e, es[k]? = some e → e.index = lo + k := by
  unfold Storage.entriesIn at hes
  intro k e hk
  split at hes
  · cases hes
  split at hes
  · cases hes
  split at hes
  · cases hes
  split at hes
  · obtain rfl := Except.ok.inj hes
    simp at hk
  obtain rfl := Except.ok.inj hes
  rw [List.getElem?_drop] at hk
  have hlt : lo - s.offset - 1 + k < hi - s.offset - 1 := by
    by_contra hge
    rw [List.getElem?_take_eq_none (by omega)] at hk
    cases hk
  rw [List.getElem?_take_of_lt hlt] at hk
  have := h _ e hk
  omega

end Storage

namespace Disk.Storage

def call (maxSegmentSize : Nat) (s : Storage) : Call → Except StorageErr Storage
  | .appendEntries entries => s.appendEntries entries
  | .setHardState st => .ok (s.setHardState st)
  | .applySnapshot snap => s.applySnapshot maxSegmentSize snap
  | .sync => .ok (s.sync maxSegmentSize)

def run (maxSegmentSize : Nat) (s : Storage) : List Call → Storage × List (Option StorageErr)
  | [] => (s,[])
  | c :: cs =>
    match s.call maxSegmentSize c with
    | .ok s => ((s.run maxSegmentSize cs).1,none :: (s.run maxSegmentSize cs).2)
    | .error err => ((s.run maxSegmentSize cs).1,some err :: (s.run maxSegmentSize cs).2)

theorem appendEntries_eq (s : Storage) (es : List Entry) :
    s.appendEntries es = match above s.offset es with
      | none => .ok s
      | some es => s.spliceEntries es := by
  unfold appendEntries above
  cases es.head? with
  | none => rfl
  | some first =>
    cases es.getLast? with
    | none => rfl
    | some last =>
      simp only
      split
      · rfl
      · split <;> rfl

@[simp] theorem syncBuffered_mirror (maxSegmentSize : Nat) (s : Storage) :
    (s.syncBuffered maxSegmentSize).mirror = s.mirror := by
  unfold syncBuffered
  split
  · rfl
  · simp only
    split <;> rfl

/-- A memory storage with the same contents takes the same step. -/
theorem call_mirror (maxSegmentSize : Nat) (s : Storage) (c : Call) :
    (s.call maxSegmentSize c).map (·.mirror.toStorage) = s.mirror.toStorage.call c := by
  have hoff : s.mirror.toStorage.offset = s.offset := rfl
  have hsplice : ∀ es, (s.spliceEntries es).map (·.mirror.toStorage) = s.mirror.toStorage.splice es := by
    intro es
    cases es with
    | nil => rfl
    | cons first rest =>
      simp only [spliceEntries,Parallax.Storage.splice]
      rw [hoff,apply_ite (Except.map _)]
      rfl
  cases c with
  | appendEntries es =>
    rw [call,Parallax.Storage.call,appendEntries_eq,Parallax.Storage.appendEntries_eq,hoff]
    cases above s.offset es with
    | none => rfl
    | some es' => exact hsplice es'
  | setHardState st => rfl
  | applySnapshot snap =>
    simp only [call,Parallax.Storage.call,applySnapshot,Parallax.Storage.applySnapshot]
    rw [hoff,apply_ite (Except.map _)]
    congr 1
    by_cases hr : snap.metadata.index < s.offset + s.mirror.entries.length ∧
        Option.map Entry.term s.mirror.entries[snap.metadata.index - s.offset - 1]? = some snap.metadata.term
    · rw [if_pos hr,if_pos hr,if_neg (fun h => h.2 hr)]
      rfl
    · rw [if_neg hr,if_neg hr,apply_ite (Except.map _)]
      simp [Except.map,writeSnapshotFile,perform,writeMarker]
  | sync => simp [call,Parallax.Storage.call,sync,Except.map]

private theorem run_mirror (maxSegmentSize : Nat) (s : Storage) (cs : List Call) :
    (s.run maxSegmentSize cs).1.mirror.toStorage = (s.mirror.toStorage.run cs).1 ∧
      (s.run maxSegmentSize cs).2 = (s.mirror.toStorage.run cs).2 := by
  induction cs generalizing s with
  | nil => exact ⟨rfl,rfl⟩
  | cons c cs ih =>
    have hc := s.call_mirror maxSegmentSize c
    rw [run,Parallax.Storage.run,← hc]
    cases hs : s.call maxSegmentSize c with
    | ok s' =>
      obtain ⟨h₁,h₂⟩ := ih s'
      exact ⟨h₁,congrArg (none :: ·) h₂⟩
    | error err =>
      obtain ⟨h₁,h₂⟩ := ih s
      exact ⟨h₁,congrArg (some err :: ·) h₂⟩

end Disk.Storage

/-- Every read call of the two storages gives the same. -/
structure Disk.Alike (m : Parallax.Storage) (s : Disk.Storage) : Prop where
  hardState : s.hardState = m.hardState
  entriesIn : ∀ lo hi, s.entriesIn lo hi = m.entriesIn lo hi
  term : ∀ i, s.term i = m.term i
  firstIndex : s.firstIndex = m.firstIndex
  lastIndex : s.lastIndex = m.lastIndex
  snapshot : s.snapshot = m.snapshot

theorem Disk.Alike.of_mirror (s : Disk.Storage) : Alike s.mirror.toStorage s where
  hardState := rfl
  entriesIn _ _ := rfl
  term _ := rfl
  firstIndex := rfl
  lastIndex := rfl
  snapshot := rfl

/-- The two implementations answer every sequence of calls alike, and entries are where their
indices say. -/
theorem Disk.mem_disk_alike (maxSegmentSize : Nat) (cs : List Call) (hc : ∀ c ∈ cs, c.Contiguous) :
    let m := ({} : Parallax.Storage).run cs
    let s := (openDir maxSegmentSize {}).run maxSegmentSize cs
    s.2 = m.2 ∧ Alike m.1 s.1 ∧ m.1.Positioned ∧ s.1.mirror.toStorage.Positioned ∧
      (∀ lo hi es, m.1.entriesIn lo hi = .ok es → ∀ k e, es[k]? = some e → e.index = lo + k) ∧
      (∀ lo hi es, s.1.entriesIn lo hi = .ok es → ∀ k e, es[k]? = some e → e.index = lo + k) := by
  intro m s
  obtain ⟨hstate,herr⟩ := (openDir maxSegmentSize {}).run_mirror maxSegmentSize cs
  have halike : Alike m.1 s.1 := hstate ▸ Alike.of_mirror s.1
  have hpos : m.1.Positioned := Storage.Positioned.run (by intro k e hk; simp at hk) hc
  refine ⟨herr,halike,hpos,hstate ▸ hpos,fun lo hi es h => hpos.entriesIn h,?_⟩
  intro lo hi es h
  rw [halike.entriesIn] at h
  exact hpos.entriesIn h

/-- A batch over a gap, an overwritten suffix, a snapshot inside the log and a stale one. -/
theorem Disk.mem_disk_alike_run :
    let cs : List Call :=
      [.appendEntries [{ term := 1, index := 1 },{ term := 1, index := 2 },{ term := 1, index := 3 }],
        .appendEntries [{ term := 1, index := 5 }],.appendEntries [{ term := 2, index := 2 },{ term := 2, index := 3 }],
        .applySnapshot { metadata := { index := 2, term := 2 } },.applySnapshot { metadata := { index := 1, term := 1 } }]
    let s := (openDir 0 {}).run 0 cs
    s.2 = [none,some .unavailable,none,none,some .compacted] ∧ s.2 = (({} : Parallax.Storage).run cs).2 := by
  intro cs
  exact ⟨by decide,(Disk.mem_disk_alike 0 cs (by decide)).1⟩

end Parallax
