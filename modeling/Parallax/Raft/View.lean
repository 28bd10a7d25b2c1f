import Parallax.Raft.Log

/-! The log as one list: storage, snapshot and unstable tail present a single list of
entries above one boundary. `Repr l xs` says that the whole log is `xs`, of which `l` still
holds the part above its boundary. -/
namespace Parallax

/-- Term of the entry at index `i`; zero at index zero and beyond the end. -/
def termAt (xs : List Entry) : Nat → Nat
  | 0 => 0
  | i + 1 => (xs[i]?.map Entry.term).getD 0

/-- The entry at position `i` carries index `i + 1`. -/
def Indexed (xs : List Entry) : Prop := ∀ i e, xs[i]? = some e → e.index = i + 1

@[simp] theorem termAt_zero (xs : List Entry) : termAt xs 0 = 0 := rfl

theorem termAt_succ_of_getElem? {xs : List Entry} {i : Nat} {e : Entry} (h : xs[i]? = some e) :
    termAt xs (i + 1) = e.term := by simp [termAt,h]

theorem termAt_of_length_lt {xs : List Entry} {i : Nat} (h : xs.length < i) : termAt xs i = 0 := by
  cases i with
  | zero => rfl
  | succ i => simp [termAt,List.getElem?_eq_none (by omega : xs.length ≤ i)]

theorem termAt_of_isPrefix {xs ys : List Entry} (h : xs <+: ys) {i : Nat} (hi : i ≤ xs.length) :
    termAt ys i = termAt xs i := by
  cases i with
  | zero => rfl
  | succ i =>
    obtain ⟨s,rfl⟩ := h
    simp [termAt,List.getElem?_append_left (by omega : i < xs.length)]

theorem termAt_take {xs : List Entry} {i n : Nat} (hi : i ≤ n) :
    termAt (xs.take n) i = termAt xs i := by
  cases i with
  | zero => rfl
  | succ i => simp [termAt,List.getElem?_take_of_lt (by omega : i < n)]

theorem le_length_of_take_isPrefix {α : Type*} {xs ys : List α} {i : Nat} (hi : i ≤ xs.length)
    (h : xs.take i <+: ys) : i ≤ ys.length := by
  have := h.length_le
  rwa [List.length_take_of_le hi] at this

theorem take_eq_of_take_isPrefix {α : Type*} {xs ys : List α} {i : Nat} (hi : i ≤ xs.length)
    (h : xs.take i <+: ys) : ys.take i = xs.take i := by
  have := List.prefix_iff_eq_take.mp h
  rw [List.length_take_of_le hi] at this
  exact this.symm

theorem Indexed.of_isPrefix {xs ys : List Entry} (h : Indexed ys) (hp : xs <+: ys) : Indexed xs := by
  intro i e he
  obtain ⟨s,rfl⟩ := hp
  apply h i e
  rw [List.getElem?_append_left (List.getElem?_eq_some_iff.mp he).1,he]

theorem Indexed.append {xs ys : List Entry} (hx : Indexed xs)
    (hy : ∀ i e, ys[i]? = some e → e.index = xs.length + 1 + i) : Indexed (xs ++ ys) := by
  intro i e he
  by_cases hi : i < xs.length
  · rw [List.getElem?_append_left hi] at he
    exact hx i e he
  rw [List.getElem?_append_right (by omega)] at he
  rw [hy _ e he]
  omega

/-- Storage that holds the part of `xs` above its snapshot. -/
structure Storage.Repr (s : Storage) (xs : List Entry) : Prop where
  le : s.offset ≤ xs.length
  entries : s.entries = xs.drop s.offset
  term : s.snapshot.metadata.term = termAt xs s.offset
  indexed : Indexed xs

namespace Storage.Repr
variable {s : Storage} {xs : List Entry}

theorem lastIndex (h : s.Repr xs) : s.lastIndex = xs.length := by
  have := h.le
  rw [Storage.lastIndex,h.entries,List.length_drop]
  omega

theorem term_eq (h : s.Repr xs) {i : Nat} (hlo : s.offset ≤ i) (hhi : i ≤ xs.length) :
    s.term i = .ok (termAt xs i) := by
  have hle := h.le
  unfold Storage.term
  split
  · rename_i he
    rw [he,h.term]
  have hlen : s.offset + s.entries.length = xs.length := by
    rw [h.entries,List.length_drop]
    omega
  rw [if_neg (by omega),if_neg (by omega)]
  obtain ⟨j,rfl⟩ : ∃ j, i = s.offset + 1 + j := ⟨i - s.offset - 1,by omega⟩
  obtain ⟨e,he⟩ : ∃ e, xs[s.offset + j]? = some e := ⟨_,List.getElem?_eq_getElem (by omega)⟩
  have : s.entries[s.offset + 1 + j - s.offset - 1]? = some e := by
    rw [h.entries,List.getElem?_drop,← he]
    congr 1
    omega
  rw [this,show s.offset + 1 + j = (s.offset + j) + 1 by omega,termAt_succ_of_getElem? he]

end Storage.Repr

namespace RaftLog

/-- The boundary below which entries are only in a snapshot. -/
def base (l : RaftLog) : SnapshotMetadata :=
  match l.unstable.snapshot with
  | some s => s.metadata
  | none => l.storage.snapshot.metadata

/-- The entries above the boundary. -/
def view (l : RaftLog) : List Entry :=
  match l.unstable.snapshot with
  | some _ => l.unstable.entries
  | none => l.storage.entries.take (l.unstable.offset - l.storage.offset - 1) ++ l.unstable.entries

/-- The entry held at index `i`, if `i` is above the boundary. -/
def entry? (l : RaftLog) (i : Nat) : Option Entry :=
  if l.base.index < i then l.view[i - l.base.index - 1]? else none

/-- The offset splits the view between storage and the unstable tail. -/
structure Aligned (l : RaftLog) : Prop where
  above : ∀ s, l.unstable.snapshot = some s → l.unstable.offset = s.metadata.index + 1
  lower : l.unstable.snapshot = none → l.storage.offset < l.unstable.offset
  upper : l.unstable.snapshot = none → l.unstable.offset ≤ l.storage.lastIndex + 1
  full : l.unstable.snapshot = none → l.unstable.entries = [] →
    l.unstable.offset = l.storage.lastIndex + 1

/-- The whole log is `xs`; entries above the boundary are available. -/
structure Repr (l : RaftLog) (xs : List Entry) : Prop extends l.Aligned where
  le : l.base.index ≤ xs.length
  view : l.view = xs.drop l.base.index
  term : l.base.term = termAt xs l.base.index
  indexed : Indexed xs

private theorem firstIndex_eq (l : RaftLog) : l.firstIndex = l.base.index + 1 := by
  unfold firstIndex base Unstable.maybeFirstIndex
  cases l.unstable.snapshot <;> rfl

@[simp] theorem commitTo_unstable (l : RaftLog) (i : Nat) : (l.commitTo i).unstable = l.unstable := by
  unfold commitTo
  split_ifs <;> rfl

@[simp] theorem commitTo_storage (l : RaftLog) (i : Nat) : (l.commitTo i).storage = l.storage := by
  unfold commitTo
  split_ifs <;> rfl

@[simp] theorem commitTo_applied (l : RaftLog) (i : Nat) : (l.commitTo i).applied = l.applied := by
  unfold commitTo
  split_ifs <;> rfl

namespace Repr
variable {l : RaftLog} {xs : List Entry}

/-- Only storage and the unstable tail matter. -/
theorem congr (h : l.Repr xs) {l' : RaftLog} (hs : l'.storage = l.storage)
    (hu : l'.unstable = l.unstable) : l'.Repr xs := by
  have hb : l'.base = l.base := by simp only [RaftLog.base,hs,hu]
  have hv : l'.view = l.view := by simp only [RaftLog.view,hs,hu]
  exact ⟨⟨by rw [hu]; exact h.above,by rw [hs,hu]; exact h.lower,by rw [hs,hu]; exact h.upper,
    by rw [hs,hu]; exact h.full⟩,by rw [hb]; exact h.le,by rw [hb,hv]; exact h.view,
    by rw [hb]; exact h.term,h.indexed⟩

theorem view_length (h : l.Repr xs) : l.base.index + l.view.length = xs.length := by
  have := h.le
  rw [h.view,List.length_drop]
  omega

/-- Position of the unstable tail in the whole log. -/
theorem split (h : l.Repr xs) : l.base.index < l.unstable.offset ∧
    l.unstable.offset + l.unstable.entries.length = xs.length + 1 ∧
    l.unstable.entries = xs.drop (l.unstable.offset - 1) := by
  have hv := h.view
  have hlen := h.view_length
  have hle := h.le
  cases hs : l.unstable.snapshot with
  | some s =>
    have ho := h.above s hs
    simp only [RaftLog.base,RaftLog.view,hs] at hv hlen hle ⊢
    rw [ho]
    refine ⟨by omega,by omega,by simpa using hv⟩
  | none =>
    have hlo := h.lower hs
    have hup := h.upper hs
    simp only [RaftLog.base,RaftLog.view,hs] at hv hlen hle ⊢
    unfold Storage.lastIndex at hup
    unfold Storage.offset at *
    have htk : (l.storage.entries.take (l.unstable.offset - l.storage.snapshot.metadata.index - 1)).length =
        l.unstable.offset - l.storage.snapshot.metadata.index - 1 := by
      rw [List.length_take]
      omega
    rw [List.length_append,htk] at hlen
    refine ⟨hlo,by omega,?_⟩
    have := congrArg (List.drop (l.unstable.offset - l.storage.snapshot.metadata.index - 1)) hv
    rw [List.drop_left' htk,List.drop_drop] at this
    rw [this]
    congr 1
    omega

/-- The stored part of the view. -/
theorem stored (h : l.Repr xs) (hs : l.unstable.snapshot = none) {n : Nat}
    (hn : n ≤ l.unstable.offset - l.storage.offset - 1) :
    l.storage.entries.take n = (xs.drop l.storage.offset).take n := by
  have hv := h.view
  have hup := h.upper hs
  simp only [RaftLog.base,RaftLog.view,hs] at hv
  unfold Storage.offset at *
  rw [← hv,List.take_append_of_le_length,List.take_take,min_eq_left hn]
  rw [List.length_take]
  unfold Storage.lastIndex Storage.offset at hup
  omega

theorem entry?_eq (h : l.Repr xs) {i : Nat} (hi : l.base.index < i) : l.entry? i = xs[i - 1]? := by
  unfold RaftLog.entry?
  rw [if_pos hi,h.view,List.getElem?_drop]
  congr 1
  omega

theorem lastIndex (h : l.Repr xs) : l.lastIndex = xs.length := by
  obtain ⟨_,hlen,_⟩ := h.split
  unfold RaftLog.lastIndex Unstable.maybeLastIndex
  by_cases he : l.unstable.entries = []
  · cases hs : l.unstable.snapshot with
    | some s =>
      have := h.above s hs
      simp only [he,List.length_nil] at hlen ⊢
      simp
      omega
    | none =>
      have := h.full hs he
      simp only [he,List.length_nil] at hlen ⊢
      simp
      omega
  have : l.unstable.entries.length ≠ 0 := by simpa using he
  simp only [this,ne_eq,not_false_eq_true,if_true]
  omega

theorem firstIndex (_ : l.Repr xs) : l.firstIndex = l.base.index + 1 := firstIndex_eq l

theorem term_eq (h : l.Repr xs) {i : Nat} (hi : l.base.index ≤ i) :
    l.term i = .ok (termAt xs i) := by
  unfold RaftLog.term
  rw [h.firstIndex,h.lastIndex]
  by_cases hhi : xs.length < i
  · rw [if_pos (.inr hhi),termAt_of_length_lt hhi]
  rw [if_neg (by omega)]
  obtain ⟨hb,hlen,hu⟩ := h.split
  have hlast := h.lastIndex
  unfold Unstable.maybeTerm
  by_cases hio : i < l.unstable.offset
  · rw [if_pos hio]
    cases hs : l.unstable.snapshot with
    | some s =>
      have ho := h.above s hs
      have hterm := h.term
      simp only [RaftLog.base,hs] at hi hb hterm ⊢
      have : s.metadata.index = i := by omega
      rw [if_pos this,hterm,this]
    | none =>
      have hterm := h.term
      have hst := @Repr.stored l xs h hs
      have hup := h.upper hs
      simp only [RaftLog.base,hs] at hi hb hterm ⊢
      unfold Storage.term
      unfold Storage.lastIndex Storage.offset at *
      by_cases he : i = l.storage.snapshot.metadata.index
      · rw [if_pos he,hterm,he]
      rw [if_neg he,if_neg (by omega),if_neg (by omega)]
      obtain ⟨j,rfl⟩ : ∃ j, i = l.storage.snapshot.metadata.index + 1 + j :=
        ⟨i - l.storage.snapshot.metadata.index - 1,by omega⟩
      have hget := congrArg (·[j]?) (hst (n := j + 1) (by omega))
      simp only [List.getElem?_take_of_lt (Nat.lt_succ_self j),List.getElem?_drop] at hget
      obtain ⟨e,he⟩ : ∃ e, xs[l.storage.snapshot.metadata.index + j]? = some e :=
        ⟨_,List.getElem?_eq_getElem (by omega)⟩
      rw [show l.storage.snapshot.metadata.index + 1 + j - l.storage.snapshot.metadata.index - 1 = j by omega,
        hget,he,show l.storage.snapshot.metadata.index + 1 + j =
        (l.storage.snapshot.metadata.index + j) + 1 by omega,termAt_succ_of_getElem? he]
  rw [if_neg hio]
  have hne : l.unstable.entries.length ≠ 0 := by omega
  simp only [Unstable.maybeLastIndex,hne,ne_eq,not_false_eq_true,if_true]
  rw [if_neg (by omega)]
  obtain ⟨j,rfl⟩ : ∃ j, i = l.unstable.offset + j := ⟨i - l.unstable.offset,by omega⟩
  obtain ⟨e,he⟩ : ∃ e, xs[l.unstable.offset - 1 + j]? = some e := ⟨_,List.getElem?_eq_getElem (by omega)⟩
  have hget : l.unstable.entries[l.unstable.offset + j - l.unstable.offset]? = some e := by
    rw [hu,List.getElem?_drop,← he]
    congr 1
    omega
  have hval : termAt xs (l.unstable.offset + j) = e.term := by
    rw [show l.unstable.offset + j = (l.unstable.offset - 1 + j) + 1 by omega]
    exact termAt_succ_of_getElem? he
  cases hs : l.unstable.snapshot with
  | some s =>
    have ho := h.above s hs
    simp only
    rw [if_neg (by omega),hget,hval]
    rfl
  | none =>
    rw [hget,hval]
    rfl

theorem matchTerm_eq (h : l.Repr xs) {i : Nat} (hi : l.base.index ≤ i) (t : Nat) :
    l.matchTerm i t = (termAt xs i == t) := by
  unfold RaftLog.matchTerm
  rw [h.term_eq hi]

theorem lastTerm_eq (h : l.Repr xs) : l.lastTerm = .ok (termAt xs xs.length) := by
  unfold RaftLog.lastTerm
  rw [h.lastIndex,h.term_eq h.le]

theorem entriesIn_eq (h : l.Repr xs) (hs : l.unstable.snapshot = none) {lo hi : Nat} (hlo : l.storage.offset < lo)
    (hle : lo ≤ hi) (hhi : hi ≤ l.unstable.offset) :
    l.storage.entriesIn lo hi = .ok ((xs.take (hi - 1)).drop (lo - 1)) := by
  have hst := @Repr.stored l xs h hs
  have hup := h.upper hs
  unfold Storage.lastIndex at hup
  unfold Storage.offset at *
  unfold Storage.entriesIn Storage.offset
  rw [if_neg (by omega),if_neg (by omega),if_neg (by omega)]
  split
  · rename_i he
    subst he
    simp
  · rw [hst (by omega),List.take_drop,List.drop_drop]
    congr 3 <;> omega

theorem unstable_drop_take (h : l.Repr xs) (hi n : Nat) :
    (l.unstable.entries.take (hi - l.unstable.offset)).drop n =
      (xs.take (hi - 1)).drop (l.unstable.offset - 1 + n) := by
  obtain ⟨hb,_,hu⟩ := h.split
  rw [hu,List.take_drop,List.drop_drop]
  by_cases hh : l.unstable.offset ≤ hi
  · rw [show l.unstable.offset - 1 + (hi - l.unstable.offset) = hi - 1 by omega]
  · rw [List.drop_eq_nil_of_le,List.drop_eq_nil_of_le] <;> rw [List.length_take] <;> omega

/-- Entries are served from the list. -/
theorem slice_eq (h : l.Repr xs) {lo hi : Nat} (hlo : l.base.index < lo) (hend : lo ≤ xs.length + 1) :
    l.slice lo hi = .ok ((xs.take (hi - 1)).drop (lo - 1)) := by
  unfold RaftLog.slice
  by_cases hge : lo ≥ hi
  · rw [if_pos hge,List.drop_eq_nil_of_le]
    rw [List.length_take]
    omega
  rw [if_neg hge,h.firstIndex,if_neg (by omega),h.lastIndex]
  set hi' := if hi > xs.length + 1 then xs.length + 1 else hi with hhi'
  have htake : xs.take (hi - 1) = xs.take (hi' - 1) := by
    rw [hhi']
    split
    · rw [List.take_of_length_le (by omega),List.take_of_length_le (by omega)]
    · rfl
  have hmin : hi' = min hi (xs.length + 1) := by
    rw [hhi']
    split <;> omega
  rw [htake]
  clear_value hi'
  obtain ⟨hb,hlen,_⟩ := h.split
  simp only
  by_cases hlu : lo < l.unstable.offset
  · rw [if_pos hlu]
    cases hs : l.unstable.snapshot with
    | some s =>
      have ho := h.above s hs
      simp only [RaftLog.base,hs] at hlo
      omega
    | none =>
      simp only [RaftLog.base,hs] at hlo
      by_cases hhu : hi' > l.unstable.offset
      · -- The slice runs over from the storage into the unstable tail.
        rw [min_eq_right (by omega),h.entriesIn_eq hs hlo (by omega) le_rfl]
        simp only [hhu,if_true]
        rw [max_eq_right (by omega),if_pos ⟨by omega,by omega⟩,h.unstable_drop_take]
        congr 1
        have hsplit : xs.take (hi' - 1) = xs.take (l.unstable.offset - 1) ++
            (xs.take (hi' - 1)).drop (l.unstable.offset - 1) := by
          conv_lhs => rw [← List.take_append_drop (l.unstable.offset - 1) (xs.take (hi' - 1))]
          rw [List.take_take,min_eq_left (by omega)]
        conv_rhs => rw [hsplit]
        rw [List.drop_append_of_le_length (by rw [List.length_take]; omega)]
        congr 2
        omega
      · rw [min_eq_left (by omega),h.entriesIn_eq hs hlo (by omega) (by omega)]
        simp only [hhu,if_false]
  rw [if_neg hlu]
  simp only
  split
  · rw [max_eq_left (by omega),if_pos ⟨by omega,by omega⟩,List.nil_append,h.unstable_drop_take]
    congr 2
    omega
  rw [List.drop_eq_nil_of_le]
  rw [List.length_take]
  omega

end Repr
end RaftLog
end Parallax
