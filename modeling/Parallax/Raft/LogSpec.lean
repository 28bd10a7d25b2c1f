import Parallax.Raft.View

/-! What each operation of the log does to the list it represents. -/
namespace Parallax

/-- Follows `ents` behind position `k` while the terms agree; from the first disagreement on,
`ents` replaces the rest. -/
def overwrite (xs : List Entry) : Nat → List Entry → List Entry
  | _, [] => xs
  | k, e :: es => if termAt xs (k + 1) = e.term then overwrite xs (k + 1) es else xs.take k ++ e :: es

/-- The first disagreement decides where the old log is cut. -/
theorem overwrite_of_conflict {xs : List Entry} {e : Entry} (j : Nat) : ∀ (k : Nat) (ents : List Entry),
    ents[j]? = some e → termAt xs (k + 1 + j) ≠ e.term →
    (∀ i < j, ∀ e, ents[i]? = some e → termAt xs (k + 1 + i) = e.term) →
    overwrite xs k ents = xs.take (k + j) ++ ents.drop j := by
  induction j with
  | zero =>
    intro k ents he hne _
    cases ents with
    | nil => cases he
    | cons e' es =>
      obtain rfl : e' = e := by simpa using he
      unfold overwrite
      rw [if_neg (by simpa using hne)]
      simp
  | succ j ih =>
    intro k ents he hne hall
    cases ents with
    | nil => cases he
    | cons e' es =>
      unfold overwrite
      rw [if_pos (by simpa using hall 0 (Nat.succ_pos j) e' rfl),
        ih (k + 1) es (by simpa using he) (by rwa [show k + 1 + 1 + j = k + 1 + (j + 1) by omega])]
      · rw [List.drop_succ_cons]
        congr 2
        omega
      intro i hi e'' he''
      rw [show k + 1 + 1 + i = k + 1 + (i + 1) by omega]
      exact hall (i + 1) (by omega) e'' (by simpa using he'')

/-- `ents` carries the indices from `k + 1` on. -/
def IndexedFrom (k : Nat) (ents : List Entry) : Prop := ∀ i e, ents[i]? = some e → e.index = k + 1 + i

theorem IndexedFrom.head {k : Nat} {e : Entry} {es : List Entry} (h : IndexedFrom k (e :: es)) :
    e.index = k + 1 := h 0 e rfl

theorem IndexedFrom.tail {k : Nat} {e : Entry} {es : List Entry} (h : IndexedFrom k (e :: es)) :
    IndexedFrom (k + 1) es := by
  intro i e' he'
  rw [h (i + 1) e' (by simpa using he')]
  omega

theorem IndexedFrom.nil (k : Nat) : IndexedFrom k [] := by simp [IndexedFrom]

private theorem indexedFrom_iff {k : Nat} {ents : List Entry} :
    IndexedFrom k ents ↔ ents.map Entry.index = List.range' (k + 1) ents.length := by
  constructor
  · intro h
    apply List.ext_getElem (by simp)
    intro i hi _
    rw [List.length_map] at hi
    rw [List.getElem_map,List.getElem_range',h i _ (List.getElem?_eq_getElem hi),Nat.one_mul]
  intro h i e he
  have := congrArg (·[i]?) h
  obtain ⟨hi,_⟩ := List.getElem?_eq_some_iff.mp he
  simp only [List.getElem?_map,he,Option.map_some,List.getElem?_range' hi,Nat.one_mul,Option.some.injEq] at this
  exact this

instance (k : Nat) (ents : List Entry) : Decidable (IndexedFrom k ents) := decidable_of_iff' _ indexedFrom_iff

theorem Indexed.from_drop {xs : List Entry} (h : Indexed xs) (k : Nat) : IndexedFrom k (xs.drop k) := by
  intro i e he
  rw [List.getElem?_drop] at he
  rw [h _ e he]
  omega

theorem IndexedFrom.take {k : Nat} {ents : List Entry} (h : IndexedFrom k ents) (n : Nat) :
    IndexedFrom k (ents.take n) := by
  intro i e he
  apply h i e
  rw [← he,List.getElem?_take_of_lt]
  by_contra hn
  rw [List.getElem?_take_eq_none (by omega)] at he
  simp at he

theorem IndexedFrom.getLast {k : Nat} {ents : List Entry} (h : IndexedFrom k ents) {e : Entry}
    (he : ents.getLast? = some e) : e.index = k + ents.length := by
  rw [List.getLast?_eq_getElem?] at he
  rw [h _ e he]
  have : ents ≠ [] := by
    rintro rfl
    simp at he
  have := List.length_pos_iff.mpr this
  omega

theorem Indexed.splice {xs ents : List Entry} (h : Indexed xs) {k : Nat} (hk : k ≤ xs.length)
    (he : IndexedFrom k ents) : Indexed (xs.take k ++ ents) := by
  apply (h.of_isPrefix (List.take_prefix k xs)).append
  rwa [List.length_take,min_eq_left hk]

theorem termAt_take_append {xs ents : List Entry} {i k : Nat} (hi : i ≤ k) (hk : k ≤ xs.length) :
    termAt (xs.take k ++ ents) i = termAt xs i := by
  rw [termAt_of_isPrefix (List.prefix_append (xs.take k) ents) (by rw [List.length_take]; omega),
    termAt_take hi]

theorem drop_splice {xs ents : List Entry} {b k : Nat} (hb : b ≤ k) (hk : k ≤ xs.length) :
    (xs.take k ++ ents).drop b = (xs.drop b).take (k - b) ++ ents := by
  rw [List.drop_append_of_le_length (by rw [List.length_take]; omega),List.drop_take]

namespace Storage.Repr
variable {s : Storage} {xs : List Entry}

theorem congr (h : s.Repr xs) {s' : Storage} (hs : s'.snapshot = s.snapshot)
    (he : s'.entries = s.entries) : s'.Repr xs := by
  have ho : s'.offset = s.offset := by rw [Storage.offset,hs,Storage.offset]
  exact ⟨ho ▸ h.le,by rw [he,ho,h.entries],by rw [hs,ho,h.term],h.indexed⟩

theorem appendEntries (h : s.Repr xs) {ents : List Entry} {k : Nat} (hk : s.offset ≤ k)
    (hkl : k ≤ xs.length) (he : IndexedFrom k ents) (hne : ents ≠ []) :
    ∃ es, s.appendEntries ents = .ok { s with entries := es } ∧
      ({ s with entries := es } : Storage).Repr (xs.take k ++ ents) := by
  have hle := h.le
  obtain ⟨e,es,rfl⟩ := List.exists_cons_of_ne_nil hne
  obtain ⟨last,hlast⟩ : ∃ last, (e :: es).getLast? = some last := ⟨_,List.getLast?_eq_some_getLast hne⟩
  have hfirst := he.head
  have hli := he.getLast hlast
  rw [List.length_cons] at hli
  have hlen : s.entries.length = xs.length - s.offset := by rw [h.entries,List.length_drop]
  refine ⟨s.entries.take (e.index - (s.offset + 1)) ++ e :: es,?_,?_⟩
  · unfold Storage.appendEntries
    simp only [List.head?_cons,hlast]
    rw [if_neg (by omega),if_neg (by omega)]
    unfold Storage.splice
    simp only
    rw [if_neg (by omega)]
  refine ⟨?_,?_,?_,h.indexed.splice hkl he⟩
  · change s.offset ≤ _
    rw [List.length_append,List.length_take]
    omega
  · change _ = List.drop s.offset _
    rw [drop_splice hk hkl,h.entries,hfirst,Nat.add_sub_add_right]
  · change s.snapshot.metadata.term = termAt _ s.offset
    rw [h.term,termAt_take_append hk hkl]

/-- A snapshot of the stored log itself only moves the boundary. -/
theorem applySnapshot_own (h : s.Repr xs) (snap : Snapshot) (hlo : s.offset < snap.metadata.index)
    (hhi : snap.metadata.index ≤ xs.length) (ht : snap.metadata.term = termAt xs snap.metadata.index) :
    ∃ es, s.applySnapshot snap = .ok { s with snapshot := snap, entries := es } ∧
      ({ s with snapshot := snap, entries := es } : Storage).Repr xs := by
  have hlen : s.offset + s.entries.length = xs.length := by
    rw [h.entries,List.length_drop]
    omega
  have hrepr : ∀ es, es = xs.drop snap.metadata.index →
      ({ s with snapshot := snap, entries := es } : Storage).Repr xs :=
    fun es hes => ⟨hhi,hes,ht,h.indexed⟩
  unfold Storage.applySnapshot
  rw [if_neg (by omega)]
  simp only [hlen]
  split
  · refine ⟨_,rfl,hrepr _ ?_⟩
    rw [h.entries,List.drop_drop]
    congr 1
    omega
  rename_i hc
  refine ⟨_,rfl,hrepr _ ?_⟩
  -- The boundary entry matches, so the snapshot ends exactly at the last entry.
  have : ¬ snap.metadata.index < xs.length := by
    intro hlt
    apply hc
    refine ⟨hlt,?_⟩
    obtain ⟨j,hj⟩ : ∃ j, snap.metadata.index = s.offset + 1 + j := ⟨snap.metadata.index - s.offset - 1,by omega⟩
    obtain ⟨e,he⟩ : ∃ e, xs[s.offset + j]? = some e := ⟨_,List.getElem?_eq_getElem (by omega)⟩
    rw [ht,hj,show s.offset + 1 + j = (s.offset + j) + 1 by omega,termAt_succ_of_getElem? he,h.entries,
      List.getElem?_drop,show s.offset + (s.offset + j + 1 - s.offset - 1) = s.offset + j by omega,he]
    rfl
  rw [List.drop_eq_nil_of_le (by omega)]

/-- A boundary that the stored log does not have empties it. -/
theorem applySnapshot_empties (h : s.Repr xs) {snap : Snapshot} (hlo : s.offset < snap.metadata.index)
    (hno : ¬ (snap.metadata.index ≤ xs.length ∧ termAt xs snap.metadata.index = snap.metadata.term)) :
    s.applySnapshot snap = .ok { s with snapshot := snap, entries := [] } := by
  have hle := h.le
  unfold Storage.applySnapshot
  rw [if_neg (by omega)]
  rw [if_neg]
  rintro ⟨hlt,hm⟩
  rw [h.entries,List.length_drop] at hlt
  obtain ⟨j,hj⟩ : ∃ j, snap.metadata.index = s.offset + 1 + j := ⟨snap.metadata.index - s.offset - 1,by omega⟩
  obtain ⟨e,he⟩ : ∃ e, xs[s.offset + j]? = some e := ⟨_,List.getElem?_eq_getElem (by omega)⟩
  rw [h.entries,List.getElem?_drop,show s.offset + (snap.metadata.index - s.offset - 1) = s.offset + j by omega,
    he] at hm
  apply hno
  refine ⟨by omega,?_⟩
  rw [hj,show s.offset + 1 + j = (s.offset + j) + 1 by omega,termAt_succ_of_getElem? he]
  simpa using hm

end Storage.Repr

namespace RaftLog

@[simp] theorem append_storage (l : RaftLog) (ents : List Entry) : (l.append ents).storage = l.storage := by
  unfold append panic
  split <;> rfl

@[simp] theorem append_committed (l : RaftLog) (ents : List Entry) :
    (l.append ents).committed = l.committed := by
  unfold append panic
  split <;> rfl

@[simp] theorem append_applied (l : RaftLog) (ents : List Entry) : (l.append ents).applied = l.applied := by
  unfold append panic
  split <;> rfl

/-- Nothing is waiting to be persisted. -/
def Clean (l : RaftLog) : Prop := l.unstable.snapshot = none ∧ l.unstable.entries = []

namespace Repr
variable {l : RaftLog} {xs : List Entry}

/-- With nothing pending, storage holds the log. -/
theorem storage (h : l.Repr xs) (hc : l.Clean) : l.storage.Repr xs := by
  obtain ⟨hs,he⟩ := hc
  have hle := h.le
  have hv := h.view
  have ht := h.term
  have hf := h.full hs he
  simp only [RaftLog.base,RaftLog.view,hs,he,List.append_nil] at hle hv ht
  refine ⟨hle,?_,ht,h.indexed⟩
  rw [List.take_of_length_le] at hv
  · exact hv
  · rw [hf,Storage.lastIndex]
    omega

theorem truncateAppend (h : l.Repr xs) {ents : List Entry} {k : Nat} (hkl : k ≤ xs.length)
    (he : IndexedFrom k ents) (hne : ents ≠ []) : ∃ u, l.unstable.truncateAppend ents = some u ∧
      u.snapshot = l.unstable.snapshot ∧ u.offset = min l.unstable.offset (k + 1) ∧
      u.entries = (xs.drop (u.offset - 1)).take (k + 1 - u.offset) ++ ents := by
  obtain ⟨e,es,rfl⟩ := List.exists_cons_of_ne_nil hne
  have hfirst := he.head
  obtain ⟨hb,hlen,hu⟩ := h.split
  unfold Unstable.truncateAppend
  simp only
  split_ifs with h1 h2 h3
  · refine ⟨_,rfl,rfl,?_,?_⟩
    · change l.unstable.offset = _
      omega
    rw [hu,List.take_of_length_le]
    rw [List.length_drop]
    omega
  · refine ⟨_,rfl,rfl,?_,?_⟩
    · change e.index = _
      omega
    · simp [hfirst]
  · refine ⟨_,rfl,rfl,?_,?_⟩
    · change l.unstable.offset = _
      omega
    · simp only
      rw [hu,hfirst]
  · omega

/-- The appended batch replaces the log from its first index on. -/
theorem append (h : l.Repr xs) {ents : List Entry} {k : Nat} (hk : l.base.index ≤ k)
    (hkl : k ≤ xs.length) (he : IndexedFrom k ents) (hne : ents ≠ []) :
    (l.append ents).Repr (xs.take k ++ ents) ∧ (l.append ents).panicked = l.panicked ∧
      (l.append ents).unstable.snapshot = l.unstable.snapshot := by
  obtain ⟨hb,_,_⟩ := h.split
  obtain ⟨u,hta,hus,hoff,hents⟩ := h.truncateAppend hkl he hne
  have happ : l.append ents = { l with unstable := u } := by
    unfold RaftLog.append
    rw [hta]
  rw [happ]
  have hbase : ({ l with unstable := u } : RaftLog).base = l.base := by
    unfold RaftLog.base
    simp only [hus]
  refine ⟨⟨⟨?_,?_,?_,?_⟩,?_,?_,?_,h.indexed.splice hkl he⟩,rfl,hus⟩
  · intro s hs
    rw [hus] at hs
    have := h.above s hs
    simp only [RaftLog.base,hs] at hk
    change u.offset = _
    omega
  · intro hs
    rw [hus] at hs
    have := h.lower hs
    simp only [RaftLog.base,hs] at hk
    change l.storage.offset < u.offset
    unfold Storage.offset at *
    omega
  · intro hs
    rw [hus] at hs
    have := h.upper hs
    change u.offset ≤ l.storage.lastIndex + 1
    omega
  · intro _ hnil
    rw [hents] at hnil
    exact absurd (List.append_eq_nil_iff.mp hnil).2 hne
  · rw [hbase,List.length_append,List.length_take]
    omega
  · rw [hbase,drop_splice hk hkl]
    unfold RaftLog.view
    simp only [hus]
    cases hs : l.unstable.snapshot with
    | some s =>
      have := h.above s hs
      simp only [RaftLog.base,hs] at hk ⊢
      rw [hents,show u.offset - 1 = s.metadata.index by omega,
        show k + 1 - u.offset = k - s.metadata.index by omega]
    | none =>
      have hlo := h.lower hs
      simp only [RaftLog.base,hs] at hk hb ⊢
      rw [h.stored hs (by omega),hents,← List.append_assoc]
      unfold Storage.offset at *
      congr 1
      rw [show k - l.storage.snapshot.metadata.index =
          (u.offset - l.storage.snapshot.metadata.index - 1) + (k + 1 - u.offset) by omega,List.take_add,
        List.drop_drop]
      congr 3
      omega
  · rw [hbase,h.term,termAt_take_append hk hkl]

theorem unstable_clean (h : l.Repr xs) (hc : l.Clean) : l.unstable = { offset := xs.length + 1 } := by
  obtain ⟨hs,he⟩ := hc
  have hlen := h.split.2.1
  rw [he,List.length_nil,Nat.add_zero] at hlen
  rw [← hs,← he,← hlen]

theorem append_clean (h : l.Repr xs) (hc : l.Clean) {ents : List Entry} {k : Nat} (hkl : k ≤ xs.length)
    (he : IndexedFrom k ents) (hne : ents ≠ []) :
    (l.append ents).unstable = { offset := k + 1, entries := ents } := by
  obtain ⟨hs,hu⟩ := hc
  obtain ⟨e,es,rfl⟩ := List.exists_cons_of_ne_nil hne
  have hfirst := he.head
  have hlen := h.split.2.1
  rw [hu,List.length_nil,Nat.add_zero] at hlen
  unfold RaftLog.append Unstable.truncateAppend
  simp only [hu,List.length_nil,Nat.add_zero,List.nil_append]
  by_cases h1 : e.index = l.unstable.offset
  · rw [if_pos h1]
    simp only [hs]
    rw [show l.unstable.offset = k + 1 by omega]
  · rw [if_neg h1,if_pos (by omega)]
    simp only [hs,hfirst]

theorem commitTo (h : l.Repr xs) (i : Nat) : (l.commitTo i).Repr xs := h.congr (by simp) (by simp)

theorem commitTo_eq (h : l.Repr xs) {i : Nat} (hi : i ≤ xs.length) :
    (l.commitTo i).committed = max l.committed i ∧ (l.commitTo i).panicked = l.panicked := by
  unfold RaftLog.commitTo
  rw [h.lastIndex]
  split_ifs with h1 h2
  · omega
  · exact ⟨by simp; omega,rfl⟩
  · exact ⟨by omega,rfl⟩

/-- The scan for the first disagreement, as a position in the batch. -/
theorem findConflict (h : l.Repr xs) {ents : List Entry} {k : Nat} (hk : l.base.index ≤ k)
    (he : IndexedFrom k ents) :
    (l.findConflict ents = 0 ∧ overwrite xs k ents = xs ∧
      ∀ i e, ents[i]? = some e → termAt xs (k + 1 + i) = e.term) ∨
    ∃ j e, ents[j]? = some e ∧ termAt xs (k + 1 + j) ≠ e.term ∧ l.findConflict ents = k + 1 + j ∧
      overwrite xs k ents = xs.take (k + j) ++ ents.drop j ∧
      ∀ i < j, ∀ e, ents[i]? = some e → termAt xs (k + 1 + i) = e.term := by
  induction ents generalizing k with
  | nil => exact .inl ⟨rfl,rfl,by simp⟩
  | cons e es ih =>
    unfold RaftLog.findConflict overwrite
    rw [he.head,h.matchTerm_eq (by omega)]
    by_cases hm : termAt xs (k + 1) = e.term
    · simp only [hm,beq_self_eq_true,if_true]
      have hshift : ∀ i e', (e :: es)[i]? = some e' → (i = 0 ∧ e' = e) ∨ ∃ i', i = i' + 1 ∧ es[i']? = some e' := by
        intro i e' hi
        cases i with
        | zero => exact .inl ⟨rfl,by simpa using hi.symm⟩
        | succ i => exact .inr ⟨i,rfl,by simpa using hi⟩
      rcases ih (k := k + 1) (by omega) he.tail with ⟨h0,ho,hall⟩ | ⟨j,ej,hj,hne,hc,ho,hall⟩
      · refine .inl ⟨h0,ho,fun i e' hi => ?_⟩
        rcases hshift i e' hi with ⟨rfl,rfl⟩ | ⟨i',rfl,hi'⟩
        · exact hm
        rw [← hall i' e' hi']
        congr 1
        omega
      refine .inr ⟨j + 1,ej,by simpa using hj,?_,by omega,?_,fun i hij e' hi => ?_⟩
      · rwa [show k + 1 + (j + 1) = k + 1 + 1 + j by omega]
      · rw [ho,List.drop_succ_cons]
        congr 2
        omega
      rcases hshift i e' hi with ⟨rfl,rfl⟩ | ⟨i',rfl,hi'⟩
      · exact hm
      rw [← hall i' (by omega) e' hi']
      congr 1
      omega
    have hm' : (termAt xs (k + 1) == e.term) = false := by simpa using hm
    simp only [hm,hm',if_false]
    exact .inr ⟨0,e,rfl,hm,rfl,by simp,fun i hi => absurd hi (Nat.not_lt_zero i)⟩

theorem le_length_of_termAt_pos {i : Nat} (h : termAt xs i ≠ 0) : i ≤ xs.length := by
  by_contra hn
  exact h (termAt_of_length_lt (by omega))

theorem maybeAppend (h : l.Repr xs) (commit : Nat) {index logTerm : Nat} {ents : List Entry}
    (hb : l.base.index ≤ index) (hc : l.committed ≤ index) (he : IndexedFrom index ents)
    (hpos : ∀ e ∈ ents, 0 < e.term) (hi : termAt xs index = logTerm → index ≤ xs.length) :
    (termAt xs index ≠ logTerm ∧ l.maybeAppend index logTerm commit ents = (l,none)) ∨
    (termAt xs index = logTerm ∧ ∃ l', l.maybeAppend index logTerm commit ents =
      (l',some (index + ents.length)) ∧ l'.Repr (overwrite xs index ents) ∧
      index + ents.length ≤ (overwrite xs index ents).length ∧ l'.panicked = l.panicked ∧
      l'.storage = l.storage ∧ l'.unstable.snapshot = l.unstable.snapshot ∧ l'.applied = l.applied ∧
      l'.committed = max l.committed (min commit (index + ents.length))) := by
  unfold RaftLog.maybeAppend
  rw [h.matchTerm_eq hb]
  by_cases hm : termAt xs index = logTerm
  swap
  · exact .inl ⟨hm,by simp [hm]⟩
  refine .inr ⟨hm,?_⟩
  have hil := hi hm
  simp only [hm,beq_self_eq_true,if_true]
  -- The log after the batch is in place; the commit step follows for both cases at once.
  obtain ⟨l₁,hl₁,hr,hlen,hp,hs,hu,ha,hcm⟩ : ∃ l₁ : RaftLog,
      (if l.findConflict ents = 0 then l
        else if l.findConflict ents ≤ l.committed then l.panic .conflictAtCommitted
        else l.append (ents.drop (l.findConflict ents - (index + 1)))) = l₁ ∧
      l₁.Repr (overwrite xs index ents) ∧ index + ents.length ≤ (overwrite xs index ents).length ∧
      l₁.panicked = l.panicked ∧ l₁.storage = l.storage ∧ l₁.unstable.snapshot = l.unstable.snapshot ∧
      l₁.applied = l.applied ∧ l₁.committed = l.committed := by
    rcases h.findConflict hb he with ⟨h0,ho,hall⟩ | ⟨j,ej,hje,_,hcf,ho,hall⟩
    · refine ⟨l,by rw [if_pos h0],by rwa [ho],?_,rfl,rfl,rfl,rfl,rfl⟩
      rw [ho]
      rcases List.eq_nil_or_concat ents with rfl | ⟨p,e,rfl⟩
      · simpa using hil
      rw [List.concat_eq_append] at hall hpos ⊢
      have ht := hall p.length e (by simp)
      have := hpos e (by simp)
      have := le_length_of_termAt_pos (show termAt xs (index + 1 + p.length) ≠ 0 by omega)
      simp
      omega
    have hj : j < ents.length := (List.getElem?_eq_some_iff.mp hje).1
    have hjl : index + j ≤ xs.length := by
      cases j with
      | zero => simpa using hil
      | succ j =>
        obtain ⟨e,hej⟩ : ∃ e, ents[j]? = some e := ⟨_,List.getElem?_eq_getElem (by omega)⟩
        have ht := hall j (by omega) e hej
        have := hpos e (List.mem_of_getElem? hej)
        have := le_length_of_termAt_pos (show termAt xs (index + 1 + j) ≠ 0 by omega)
        omega
    have hne : ents.drop j ≠ [] := by simpa using hj
    have hfrom : IndexedFrom (index + j) (ents.drop j) := by
      intro i e hie
      rw [List.getElem?_drop] at hie
      rw [he _ e hie]
      omega
    obtain ⟨hr,hp,hu⟩ := h.append (k := index + j) (by omega) hjl hfrom hne
    have hdrop : l.findConflict ents - (index + 1) = j := by omega
    refine ⟨l.append (ents.drop j),?_,by rwa [ho],?_,hp,by simp,hu,by simp,by simp⟩
    · rw [if_neg (by omega),if_neg (by omega),hdrop]
    · rw [ho,List.length_append,List.length_take,List.length_drop]
      omega
  rw [hl₁]
  obtain ⟨hc1,hc2⟩ := hr.commitTo_eq (i := min commit (index + ents.length)) (by omega)
  exact ⟨_,rfl,hr.commitTo _,hlen,by rw [hc2,hp],by simp [hs],by simp [hu],by simp [ha],by rw [hc1,hcm]⟩

theorem maybeAppend_clean (h : l.Repr xs) (hcl : l.Clean) (commit : Nat) {index logTerm : Nat} {ents : List Entry}
    (hb : l.base.index ≤ index) (hc : l.committed ≤ index) (he : IndexedFrom index ents)
    (hpos : ∀ e ∈ ents, 0 < e.term) (hil : index ≤ xs.length) (hm : l.matchTerm index logTerm = true) :
    (l.maybeAppend index logTerm commit ents).1.unstable = l.unstable ∨
    ∃ j e, ents[j]? = some e ∧ termAt xs (index + 1 + j) ≠ e.term ∧
      (∀ i < j, ∀ e, ents[i]? = some e → termAt xs (index + 1 + i) = e.term) ∧ index + j ≤ xs.length ∧
      (l.maybeAppend index logTerm commit ents).1.unstable =
        { offset := index + j + 1, entries := ents.drop j } := by
  unfold RaftLog.maybeAppend
  rw [if_pos hm]
  simp only [RaftLog.commitTo_unstable]
  rcases h.findConflict hb he with ⟨h0,_⟩ | ⟨j,ej,hje,hne,hcf,_,hall⟩
  · rw [if_pos h0]
    exact .inl rfl
  have hj : j < ents.length := (List.getElem?_eq_some_iff.mp hje).1
  have hjl : index + j ≤ xs.length := by
    cases j with
    | zero => simpa using hil
    | succ j =>
      obtain ⟨e,hej⟩ : ∃ e, ents[j]? = some e := ⟨_,List.getElem?_eq_getElem (by omega)⟩
      have ht := hall j (by omega) e hej
      have := hpos e (List.mem_of_getElem? hej)
      have := le_length_of_termAt_pos (show termAt xs (index + 1 + j) ≠ 0 by omega)
      omega
  have hfrom : IndexedFrom (index + j) (ents.drop j) := by
    intro i e hie
    rw [List.getElem?_drop] at hie
    rw [he _ e hie]
    omega
  have hdrop : l.findConflict ents - (index + 1) = j := by omega
  rw [if_neg (by omega),if_neg (by omega),hdrop]
  exact .inr ⟨j,ej,hje,hne,hall,hjl,h.append_clean hcl hjl hfrom (by simpa using hj)⟩

/-- A restored log is whatever list ends at the snapshot. -/
theorem restore (l : RaftLog) {snap : Snapshot} {ys : List Entry} (hlen : ys.length = snap.metadata.index)
    (ht : snap.metadata.term = termAt ys snap.metadata.index) (hy : Indexed ys) :
    (l.restore snap).Repr ys := by
  refine ⟨⟨?_,?_,?_,?_⟩,?_,?_,?_,hy⟩
  · rintro s hs
    obtain rfl : snap = s := by simpa [RaftLog.restore,Unstable.restore] using hs
    rfl
  · simp [RaftLog.restore,Unstable.restore]
  · simp [RaftLog.restore,Unstable.restore]
  · simp [RaftLog.restore,Unstable.restore]
  · exact Nat.le_of_eq hlen.symm
  · change [] = ys.drop snap.metadata.index
    simp [← hlen]
  · exact ht

end Repr
end RaftLog

/-- A log over `st` with nothing pending. -/
theorem RaftLog.Repr.of_storage {l : RaftLog} {xs : List Entry} (h : l.storage.Repr xs)
    (hu : l.unstable = { offset := xs.length + 1 }) : l.Repr xs := by
  have hle := h.le
  have hb : l.base = l.storage.snapshot.metadata := by simp [RaftLog.base,hu]
  refine ⟨⟨by simp [hu],fun _ => ?_,fun _ => ?_,fun _ _ => ?_⟩,by rw [hb]; exact hle,?_,by rw [hb]; exact h.term,h.indexed⟩
  · rw [hu]
    exact Nat.lt_succ_of_le hle
  · rw [hu,h.lastIndex]
  · rw [hu,h.lastIndex]
  rw [hb]
  unfold RaftLog.view
  rw [hu]
  simp only [List.append_nil]
  rw [h.entries,List.take_of_length_le]
  · rfl
  · rw [List.length_drop]
    omega

namespace RaftLog.Repr
variable {l : RaftLog} {xs : List Entry}

theorem unstable_indexed (h : l.Repr xs) : IndexedFrom (l.unstable.offset - 1) l.unstable.entries := by
  rw [h.split.2.2]
  exact h.indexed.from_drop _

theorem stable (h : l.Repr xs) : l.unstable.entries.getLast?.elim l (fun last =>
    l.stableTo last.index last.term) =
      { l with unstable := { l.unstable with entries := [], offset := xs.length + 1 } } := by
  obtain ⟨hb,hlen,_⟩ := h.split
  cases hlast : l.unstable.entries.getLast? with
  | none =>
    have he : l.unstable.entries = [] := List.getLast?_eq_none_iff.mp hlast
    rw [he,List.length_nil,Nat.add_zero] at hlen
    simp only [Option.elim_none]
    rw [← he,← hlen]
  | some last =>
    have hne : l.unstable.entries ≠ [] := by
      rintro he
      rw [he] at hlast
      cases hlast
    have hpos := List.length_pos_iff.mpr hne
    have hi := h.unstable_indexed.getLast hlast
    have hidx : last.index = xs.length := by omega
    have hget : l.unstable.entries[last.index - l.unstable.offset]? = some last := by
      rw [← hlast,List.getLast?_eq_getElem?]
      congr 1
      omega
    have hterm : l.unstable.maybeTerm last.index = some last.term := by
      unfold Unstable.maybeTerm Unstable.maybeLastIndex
      rw [if_neg (by omega)]
      simp only [ne_eq,Nat.ne_of_gt hpos,not_false_eq_true,if_true]
      rw [if_neg (by omega),hget]
      cases hs : l.unstable.snapshot with
      | none => rfl
      | some s =>
        have := h.above s hs
        simp only
        rw [if_neg (by omega)]
        rfl
    simp only [Option.elim_some,RaftLog.stableTo,Unstable.stableTo,hterm]
    rw [if_neg (by omega),List.drop_eq_nil_of_le (by omega),hidx]

theorem acknowledged (h : l.Repr xs) (st : Storage) :
    l.unstable.snapshot.elim
      (l.unstable.entries.getLast?.elim { l with storage := st } fun last =>
        ({ l with storage := st } : RaftLog).stableTo last.index last.term)
      (fun s => (l.unstable.entries.getLast?.elim { l with storage := st } fun last =>
        ({ l with storage := st } : RaftLog).stableTo last.index last.term).stableSnapTo s.metadata.index) =
      { l with storage := st, unstable := { offset := xs.length + 1 } } := by
  have hst : (l.unstable.entries.getLast?.elim ({ l with storage := st } : RaftLog) fun last =>
      ({ l with storage := st } : RaftLog).stableTo last.index last.term) =
      { l with storage := st, unstable := { l.unstable with entries := [], offset := xs.length + 1 } } := by
    have := congrArg (fun l : RaftLog => { l with storage := st }) h.stable
    cases hl : l.unstable.entries.getLast? <;> simpa [hl,RaftLog.stableTo] using this
  rw [hst]
  cases hsn : l.unstable.snapshot with
  | none => simp [hsn]
  | some s => simp [RaftLog.stableSnapTo,Unstable.stableSnapTo,hsn]

/-- The committed entries not yet surfaced. -/
theorem nextCommittedEnts (h : l.Repr xs) (hb : l.base.index ≤ l.applied) (hc : l.committed ≤ xs.length) :
    l.nextCommittedEnts = .ok ((xs.take l.committed).drop l.applied) := by
  unfold RaftLog.nextCommittedEnts
  simp only
  split
  · rw [List.drop_eq_nil_of_le]
    rw [List.length_take]
    omega
  rename_i hlt
  have hlo : (if l.applied + 1 < l.firstIndex then l.firstIndex else l.applied + 1) = l.applied + 1 := by
    rw [h.firstIndex]
    exact if_neg (by omega)
  rw [hlo,if_neg hlt,h.slice_eq (by omega) (by omega)]
  simp

theorem persisted (h : l.Repr xs) (hp : ∀ snap, l.unstable.snapshot = some snap →
      l.storage.applySnapshot snap = .ok { l.storage with snapshot := snap, entries := [] }) :
    ∃ s₁ s₂, l.unstable.snapshot.elim (.ok l.storage) l.storage.applySnapshot = .ok s₁ ∧
      s₁.appendEntries l.unstable.entries = .ok s₂ ∧ s₂.Repr xs ∧
      s₂.snapshot = l.unstable.snapshot.getD l.storage.snapshot ∧ s₂.hardState = l.storage.hardState := by
  -- The snapshot first: it empties the storage it does not match.
  obtain ⟨s₁,hs₁,hsn,hmeta,hhs,hview,hnil,hoff⟩ : ∃ s₁ : Storage,
      l.unstable.snapshot.elim (.ok l.storage) l.storage.applySnapshot = .ok s₁ ∧
      s₁.snapshot = l.unstable.snapshot.getD l.storage.snapshot ∧ s₁.snapshot.metadata = l.base ∧
      s₁.hardState = l.storage.hardState ∧
      s₁.entries.take (l.unstable.offset - s₁.offset - 1) ++ l.unstable.entries = l.view ∧
      (l.unstable.entries = [] → s₁.entries = l.view) ∧ l.unstable.offset ≤ s₁.offset + s₁.entries.length + 1 := by
    cases hs : l.unstable.snapshot with
    | some snap =>
      have := h.above snap hs
      refine ⟨_,hp snap hs,rfl,by simp [RaftLog.base,hs],rfl,by simp [RaftLog.view,hs],?_,?_⟩
      · intro he
        simp [RaftLog.view,hs,he]
      · simp only [Storage.offset]
        omega
    | none =>
      refine ⟨_,rfl,rfl,by simp [RaftLog.base,hs],rfl,by simp [RaftLog.view,hs],fun he => ?_,?_⟩
      · have hf := h.full hs he
        simp only [RaftLog.view,hs,he,List.append_nil]
        rw [List.take_of_length_le]
        rw [hf,Storage.lastIndex]
        omega
      have := h.upper hs
      unfold Storage.lastIndex at this
      exact this
  have hoff₁ : s₁.offset = l.base.index := by
    unfold Storage.offset
    rw [hmeta]
  obtain ⟨hb,hlen,_⟩ := h.split
  -- Then the entries, behind the stored part they continue.
  obtain ⟨es,hes,hev⟩ : ∃ es, s₁.appendEntries l.unstable.entries = .ok { s₁ with entries := es } ∧ es = l.view := by
    cases hu : l.unstable.entries with
    | nil => exact ⟨s₁.entries,rfl,hnil hu⟩
    | cons e es =>
      have hidx := h.unstable_indexed
      rw [hu] at hidx
      have hfirst := hidx.head
      obtain ⟨last,hlast⟩ : ∃ last, (e :: es).getLast? = some last :=
        ⟨_,List.getLast?_eq_some_getLast (by simp)⟩
      have hli := hidx.getLast hlast
      rw [List.length_cons] at hli
      refine ⟨s₁.entries.take (e.index - (s₁.offset + 1)) ++ e :: es,?_,?_⟩
      · unfold Storage.appendEntries
        simp only [List.head?_cons,hlast]
        rw [if_neg (by omega),if_neg (by omega)]
        unfold Storage.splice
        simp only
        rw [if_neg (by omega)]
      · rw [← hview,hu,show e.index - (s₁.offset + 1) = l.unstable.offset - s₁.offset - 1 by omega]
  refine ⟨s₁,_,hs₁,hes,⟨?_,?_,?_,h.indexed⟩,hsn,hhs⟩
  · change s₁.offset ≤ _
    rw [hoff₁]
    exact h.le
  · change es = xs.drop s₁.offset
    rw [hev,hoff₁]
    exact h.view
  change s₁.snapshot.metadata.term = termAt xs s₁.offset
  rw [hmeta,hoff₁]
  exact h.term

end RaftLog.Repr

end Parallax
