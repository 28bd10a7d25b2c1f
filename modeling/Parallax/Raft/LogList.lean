import Parallax.Raft.LogSpec

/-! The log as one list: a boundary, the entries above it and the two watermarks. Storage, pending snapshot and
unstable tail are an implementation of it. -/
namespace Parallax

/-- A snapshot boundary and the entries above it. -/
structure LogList where
  boundary : SnapshotMetadata := {}
  entries : List Entry := []
  committed : Nat := 0
  applied : Nat := 0
  deriving DecidableEq, Repr

namespace LogList

def firstIndex (a : LogList) : Nat := a.boundary.index + 1

def lastIndex (a : LogList) : Nat := a.boundary.index + a.entries.length

/-- The term of the boundary, or of the entry at `i`. -/
def term? (a : LogList) (i : Nat) : Option Nat :=
  if i < a.boundary.index then none
  else if i = a.boundary.index then some a.boundary.term
  else a.entries[i - a.firstIndex]?.map Entry.term

/-- The entries in `[lo, hi)`. -/
def slice (a : LogList) (lo hi : Nat) : List Entry :=
  (a.entries.take (hi - a.firstIndex)).drop (lo - a.firstIndex)

/-- The batch replaces the list from its first index on. -/
def append (a : LogList) : List Entry → LogList
  | [] => a
  | e :: es => { a with entries := a.entries.take (e.index - a.firstIndex) ++ e :: es }

def restore (a : LogList) (m : SnapshotMetadata) : LogList :=
  { boundary := m, entries := [], committed := m.index, applied := max a.applied m.index }

/-- Out of range the list stays as it is. -/
def commitTo (a : LogList) (i : Nat) : LogList :=
  if i ≤ a.lastIndex then { a with committed := max a.committed i } else a

/-- Out of range the list stays as it is. -/
def appliedTo (a : LogList) (i : Nat) : LogList :=
  if a.applied ≤ i ∧ i ≤ a.committed then { a with applied := i } else a

/-- The boundary moves up to `i`. -/
def compact (a : LogList) (i : Nat) : LogList :=
  if a.boundary.index < i then
    { a with boundary := ⟨i, (a.term? i).getD 0⟩, entries := a.entries.drop (i - a.boundary.index) }
  else a

/-- The list has an entry, or its boundary, at `i` with term `t`. -/
def Has (a : LogList) (i t : Nat) : Prop := a.term? i = some t

instance (a : LogList) (i t : Nat) : Decidable (a.Has i t) := inferInstanceAs (Decidable (_ = _))

end LogList

namespace RaftLog

/-- The list a log presents. -/
def list (l : RaftLog) : LogList :=
  { boundary := l.base, entries := l.view, committed := l.committed, applied := l.applied }

/-- Storage and unstable tail fit together, and every entry sits at its index. -/
structure WF (l : RaftLog) : Prop extends l.Aligned where
  indexed : IndexedFrom l.base.index l.view
  origin : l.base.index = 0 → l.base.term = 0

variable {l : RaftLog} {xs : List Entry}

@[simp] theorem list_firstIndex (l : RaftLog) : l.list.firstIndex = l.base.index + 1 := rfl

theorem Repr.wf (h : l.Repr xs) : l.WF := by
  refine ⟨h.toAligned,?_,fun h0 => ?_⟩
  · rw [h.view]
    exact h.indexed.from_drop _
  · rw [h.term,h0,termAt_zero]

theorem WF.repr (h : l.WF) : ∃ xs, l.Repr xs := by
  have hlen : ((List.range l.base.index).map fun i => ({ index := i + 1, term := l.base.term } : Entry)).length =
      l.base.index := by simp
  refine ⟨((List.range l.base.index).map fun i => { index := i + 1, term := l.base.term }) ++ l.view,
    h.toAligned,?_,?_,?_,?_⟩
  · rw [List.length_append,hlen]
    omega
  · rw [List.drop_left' hlen]
  · cases hb : l.base.index with
    | zero => exact h.origin hb
    | succ b =>
      simp only [termAt]
      rw [List.getElem?_append_left (by simp)]
      simp
  apply Indexed.append
  · intro i e he
    obtain ⟨j,hj,rfl⟩ := List.mem_map.mp (List.mem_of_getElem? he)
    obtain ⟨hi,hie⟩ := List.getElem?_eq_some_iff.mp he
    rw [List.getElem_map,List.getElem_range] at hie
    rw [← hie]
  · rw [hlen]
    exact h.indexed

/-- Terms of the list and of a whole log above it. -/
theorem Repr.term? (h : l.Repr xs) {i : Nat} (hi : l.base.index ≤ i) :
    l.list.term? i = if i ≤ xs.length then some (termAt xs i) else none := by
  have hle := h.le
  unfold LogList.term?
  change (if i < l.base.index then none else if i = l.base.index then some l.base.term
    else l.view[i - (l.base.index + 1)]?.map Entry.term) = _
  rw [if_neg (by omega)]
  by_cases hb : i = l.base.index
  · rw [if_pos hb,if_pos (by omega),h.term,hb]
  rw [if_neg hb,h.view,List.getElem?_drop]
  obtain ⟨j,rfl⟩ : ∃ j, i = j + 1 := ⟨i - 1,by omega⟩
  rw [show l.base.index + (j + 1 - (l.base.index + 1)) = j by omega]
  by_cases hj : j + 1 ≤ xs.length
  · rw [if_pos hj,List.getElem?_eq_getElem (by omega : j < xs.length)]
    simp [termAt,List.getElem?_eq_getElem (by omega : j < xs.length)]
  · rw [if_neg hj,List.getElem?_eq_none (by omega)]
    rfl

theorem Repr.has_iff (h : l.Repr xs) {i : Nat} (hi : l.base.index ≤ i) {t : Nat} :
    l.list.Has i t ↔ i ≤ xs.length ∧ termAt xs i = t := by
  unfold LogList.Has
  rw [h.term? hi]
  split
  · rename_i hle
    simp [hle]
  · rename_i hlt
    simp [hlt]

theorem Repr.list_lastIndex (h : l.Repr xs) : l.list.lastIndex = xs.length := h.view_length

/-- What a log answers is what the list answers. -/
structure Answers (l : RaftLog) (a : LogList) : Prop where
  firstIndex : l.firstIndex = a.firstIndex
  lastIndex : l.lastIndex = a.lastIndex
  term : ∀ i, a.firstIndex - 1 ≤ i → i ≤ a.lastIndex → ∃ t, l.term i = .ok t ∧ a.term? i = some t
  slice : ∀ lo hi, a.firstIndex ≤ lo → lo ≤ hi → lo ≤ a.lastIndex + 1 → l.slice lo hi = .ok (a.slice lo hi)
  committed : l.committed = a.committed
  applied : l.applied = a.applied

theorem WF.answers (h : l.WF) : l.Answers l.list := by
  obtain ⟨xs,hr⟩ := h.repr
  have hlast := hr.list_lastIndex
  refine ⟨hr.firstIndex,by rw [hr.lastIndex,hlast],fun i hlo hhi => ?_,fun lo hi hlo hle hend => ?_,rfl,rfl⟩
  · rw [list_firstIndex,Nat.add_sub_cancel] at hlo
    rw [hlast] at hhi
    exact ⟨_,hr.term_eq hlo,by rw [hr.term? hlo,if_pos hhi]⟩
  rw [list_firstIndex] at hlo
  rw [hlast] at hend
  rw [hr.slice_eq (by omega) hend]
  unfold LogList.slice
  rw [list_firstIndex]
  change _ = Except.ok (((l.view).take (hi - (l.base.index + 1))).drop (lo - (l.base.index + 1)))
  rw [hr.view,List.take_drop,List.drop_drop,show l.base.index + (hi - (l.base.index + 1)) = hi - 1 by omega,
    show l.base.index + (lo - (l.base.index + 1)) = lo - 1 by omega]

end RaftLog

/-- `ents` from its first entry that the list lacks on, written over the list. -/
def LogList.splice (a : LogList) (ents : List Entry) : LogList :=
  a.append (ents.dropWhile fun e => a.Has e.index e.term)

theorem overwrite_terms {xs : List Entry} (ents : List Entry) : ∀ k, k ≤ xs.length → (∀ e ∈ ents, 0 < e.term) →
    (∀ i ≤ k, termAt (overwrite xs k ents) i = termAt xs i) ∧
    ∀ i e, ents[i]? = some e → termAt (overwrite xs k ents) (k + 1 + i) = e.term := by
  induction ents with
  | nil => exact fun k _ _ => ⟨fun _ _ => rfl,fun i e he => by simp at he⟩
  | cons e es ih =>
    intro k hk hpos
    unfold overwrite
    split
    · rename_i hm
      have hk' : k + 1 ≤ xs.length := by
        apply RaftLog.Repr.le_length_of_termAt_pos
        have := hpos e (by simp)
        omega
      obtain ⟨hbelow,hown⟩ := ih (k + 1) hk' fun e' he' => hpos e' (by simp [he'])
      refine ⟨fun i hi => hbelow i (by omega),fun i e' he' => ?_⟩
      cases i with
      | zero =>
        obtain rfl : e = e' := by simpa using he'
        exact (hbelow (k + 1) le_rfl).trans hm
      | succ i =>
        rw [show k + 1 + (i + 1) = k + 1 + 1 + i by omega]
        exact hown i e' (by simpa using he')
    refine ⟨fun i hi => termAt_take_append hi hk,fun i e' he' => ?_⟩
    rw [show k + 1 + i = (k + i) + 1 by omega]
    apply termAt_succ_of_getElem?
    rw [List.getElem?_append_right (by rw [List.length_take]; omega),List.length_take,min_eq_left hk,
      Nat.add_sub_cancel_left,he']

theorem RaftLog.Repr.splice {l : RaftLog} {xs : List Entry} (h : l.Repr xs) (ents : List Entry) :
    ∀ k, l.base.index ≤ k → k ≤ xs.length → IndexedFrom k ents → (∀ e ∈ ents, 0 < e.term) →
      (l.list.splice ents).entries = (overwrite xs k ents).drop l.base.index := by
  induction ents with
  | nil => exact fun k _ _ _ _ => h.view
  | cons e es ih =>
    intro k hb hk hidx hpos
    have hhas : l.list.Has e.index e.term ↔ termAt xs (k + 1) = e.term := by
      rw [hidx.head,h.has_iff (by omega)]
      refine ⟨And.right,fun hm => ⟨le_length_of_termAt_pos ?_,hm⟩⟩
      have := hpos e (by simp)
      omega
    unfold overwrite LogList.splice
    by_cases hm : termAt xs (k + 1) = e.term
    · rw [if_pos hm,List.dropWhile_cons,if_pos (decide_eq_true (hhas.mpr hm))]
      refine ih (k + 1) (by omega) (le_length_of_termAt_pos ?_) hidx.tail fun e' he' => hpos e' (by simp [he'])
      have := hpos e (by simp)
      omega
    have hno : ¬ decide (l.list.Has e.index e.term) = true := by
      rw [decide_eq_true_eq,hhas]
      exact hm
    rw [if_neg hm,List.dropWhile_cons,if_neg hno,drop_splice hb hk,← h.view]
    unfold LogList.append
    simp only [hidx.head,list_firstIndex]
    rw [Nat.add_sub_add_right]
    rfl

namespace RaftLog
variable {l : RaftLog} {xs : List Entry}

theorem Repr.findConflict_eq_zero (h : l.Repr xs) {k : Nat} {ents : List Entry} (hk : l.base.index ≤ k)
    (he : IndexedFrom k ents) (hall : ∀ i e, ents[i]? = some e → termAt xs (k + 1 + i) = e.term) :
    l.findConflict ents = 0 := by
  rcases h.findConflict hk he with ⟨h0,_⟩ | ⟨j,e,hj,hne,_⟩
  · exact h0
  · exact absurd (hall j e hj) hne

theorem Repr.maybeAppend_present (h : l.Repr xs) {index logTerm commit : Nat} {ents : List Entry}
    (hb : l.base.index ≤ index) (hm : termAt xs index = logTerm) (he : IndexedFrom index ents)
    (hall : ∀ i e, ents[i]? = some e → termAt xs (index + 1 + i) = e.term) :
    l.maybeAppend index logTerm commit ents =
      (l.commitTo (min commit (index + ents.length)),some (index + ents.length)) := by
  unfold RaftLog.maybeAppend
  rw [h.matchTerm_eq hb,hm,beq_self_eq_true,if_pos rfl]
  simp only [h.findConflict_eq_zero hb he hall,if_true]

private theorem commitTo_of_le {i : Nat} (h : i ≤ l.committed) : l.commitTo i = l := if_neg (by omega)

/-- An append is refused where the preceding entry is not in the log. Otherwise the log is
left alone as far as it holds the batch, and overwritten from the first entry it lacks on;
the commit index follows, and repeating the append changes nothing. -/
theorem maybeAppend_splice (l : RaftLog) (hwf : l.WF) (hbase : l.base.index ≤ l.committed)
    (index logTerm commit : Nat) (ents : List Entry) (hc : l.committed ≤ index) (hz : logTerm = 0 → index = 0)
    (hidx : IndexedFrom index ents) (hpos : ∀ e ∈ ents, 0 < e.term) :
    ((l.maybeAppend index logTerm commit ents).2 = none ↔ ¬ l.list.Has index logTerm) ∧
    (¬ l.list.Has index logTerm → (l.maybeAppend index logTerm commit ents).1 = l) ∧
    (l.list.Has index logTerm → ∃ l', l.maybeAppend index logTerm commit ents = (l',some (index + ents.length)) ∧
      l'.list = { l.list.splice ents with committed := max l.committed (min commit (index + ents.length)) } ∧
      ((∀ e ∈ ents, l.list.Has e.index e.term) → l'.storage = l.storage ∧ l'.unstable = l.unstable) ∧
      index + ents.length ≤ l'.lastIndex ∧ l'.panicked = l.panicked ∧
      l'.maybeAppend index logTerm commit ents = (l',some (index + ents.length))) := by
  obtain ⟨xs,h⟩ := hwf.repr
  have hb : l.base.index ≤ index := Nat.le_trans hbase hc
  have hin : termAt xs index = logTerm → index ≤ xs.length := by
    intro hm
    by_contra hlt
    have := hz (hm.symm.trans (termAt_of_length_lt (by omega)))
    omega
  have hhas : l.list.Has index logTerm ↔ termAt xs index = logTerm :=
    (h.has_iff hb).trans ⟨And.right,fun hm => ⟨hin hm,hm⟩⟩
  rcases h.maybeAppend commit hb hc hidx hpos hin with ⟨hm,he⟩ | ⟨hm,l',he,hr,hlen,hp,hs,hu,ha,hcm⟩
  · have hno : ¬ l.list.Has index logTerm := fun hh => hm (hhas.mp hh)
    exact ⟨by simp [he,hno],fun _ => by rw [he],fun hh => absurd hh hno⟩
  have hyes : l.list.Has index logTerm := hhas.mpr hm
  have hbase' : l'.base = l.base := by
    unfold RaftLog.base
    rw [hs,hu]
  obtain ⟨hbelow,hown⟩ := overwrite_terms ents index (hin hm) hpos
  refine ⟨by simp [he,hyes],fun hno => absurd hyes hno,fun _ => ⟨l',he,?_,fun hall => ?_,?_,hp,?_⟩⟩
  · have hents := h.splice ents index hb (hin hm) hidx hpos
    have hview := hr.view
    rw [hbase'] at hview
    have hrest : (l.list.splice ents).boundary = l.base ∧ (l.list.splice ents).applied = l.applied := by
      unfold LogList.splice LogList.append
      split <;> exact ⟨rfl,rfl⟩
    unfold RaftLog.list at hents hrest ⊢
    rw [hbase',hview,← hents,hcm,ha]
    simp only [hrest.1,hrest.2]
  · have hpres : ∀ i e, ents[i]? = some e → termAt xs (index + 1 + i) = e.term := by
      intro i e hie
      have hin := hall e (List.mem_of_getElem? hie)
      rw [hidx i e hie,h.has_iff (by omega)] at hin
      exact hin.2
    rw [h.maybeAppend_present hb hm hidx hpres,Prod.mk.injEq] at he
    rw [← he.1]
    simp
  · rw [hr.lastIndex]
    exact hlen
  · have hm' : termAt (overwrite xs index ents) index = logTerm := (hbelow index le_rfl).trans hm
    rw [hr.maybeAppend_present (by rw [hbase']; exact hb) hm' hidx hown,commitTo_of_le (by omega)]

/-- Three entries in storage above a snapshot, and one that waits to be persisted. -/
def layered : RaftLog where
  storage := { snapshot := { metadata := ⟨2,1⟩ }, entries := [{ term := 1, index := 3 }, { term := 1, index := 4 },
    { term := 2, index := 5 }] }
  unstable := { entries := [{ term := 2, index := 6 }], offset := 6 }
  committed := 3
  applied := 3

theorem maybeAppend_splice_layered : ∃ l', layered.maybeAppend 3 1 4
      [{ term := 1, index := 4 }, { term := 3, index := 5 }] = (l',some 5) ∧
    l'.list = { layered.list.splice [{ term := 1, index := 4 }, { term := 3, index := 5 }] with committed := 4 } ∧
    5 ≤ l'.lastIndex := by
  have hwf : layered.WF := ⟨⟨by simp [layered],by decide,by decide,by decide⟩,by decide,by decide⟩
  obtain ⟨l',he,hl,-,hle,-⟩ := (layered.maybeAppend_splice hwf (by decide) 3 1 4
    [{ term := 1, index := 4 }, { term := 3, index := 5 }] (by decide) (by decide) (by decide) (by decide)).2.2
    (by decide)
  exact ⟨l',he,hl,hle⟩

end RaftLog
end Parallax
