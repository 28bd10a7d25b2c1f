import Parallax.Raft.Storage
import Mathlib.Data.Set.Lattice

/-! sim/node.go: the simulator's storage wrapper. It counts the mutations and keeps a record of every index that became
durably committed. What a checker can learn from the records only grows. -/
namespace Parallax.Sim

/-- FNV-1a. -/
def fnv64 (b : Bytes) : UInt64 :=
  b.foldl (fun h c => (h ^^^ c.toUInt64) * 1099511628211) 14695981039346656037

/-- The interface of the storage that is wrapped. A call that fails leaves it as it was. -/
structure LogStorage (σ : Type) where
  appendEntries : σ → List Entry → Except StorageErr σ
  setHardState : σ → HardState → Except StorageErr σ
  entries : σ → Nat → Nat → Except StorageErr (List Entry)
  term : σ → Nat → Except StorageErr Nat
  firstIndex : σ → Except StorageErr Nat
  lastIndex : σ → Except StorageErr Nat
  applySnapshot : σ → Snapshot → Except StorageErr σ
  snapshot : σ → Except StorageErr Snapshot

/-- mem.Storage. -/
def mem : LogStorage Storage where
  appendEntries := Storage.appendEntries
  setHardState s hs := .ok (s.setHardState hs)
  entries := Storage.entriesIn
  term := Storage.term
  firstIndex s := .ok s.firstIndex
  lastIndex s := .ok s.lastIndex
  applySnapshot := Storage.applySnapshot
  snapshot s := .ok s.snapshot

structure CommittedRec where
  index : Nat
  term : Nat := 0
  digest : UInt64 := 0
  commitTerm : Nat := 0
  termKnown : Bool := false
  dataKnown : Bool := false
  deriving DecidableEq, Repr

/-- `trackStorage` starts from the other fields' zero values. -/
structure TrackedStorage (σ : Type) where
  storage : σ
  generation : Nat := 0
  durableCommit : Nat := 0
  committed : List CommittedRec := []

inductive TrackErr
  | storage (err : StorageErr)
  | unavailableIndex (index : Nat)
  deriving DecidableEq, Repr

namespace TrackedStorage
variable {σ : Type} (S : LogStorage σ) (t : TrackedStorage σ)

/-- Each call returns the storage after it and its error, if any. -/
def appendEntries (entries : List Entry) : TrackedStorage σ × Option TrackErr :=
  match S.appendEntries t.storage entries with
  | .error err => (t,some (.storage err))
  | .ok storage => ({ t with storage, generation := t.generation + 1 },none)

/-- The indices `durableCommit + 1` to `commit`. -/
def advance (commit : Nat) : List Nat := List.range' (t.durableCommit + 1) (commit - t.durableCommit)

/-- Of what a snapshot covers, only the term of its last index is known. -/
def snapshotRec (snapshot : Snapshot) (index : Nat) : CommittedRec :=
  if index = snapshot.metadata.index then { index, term := snapshot.metadata.term, termKnown := true } else { index }

def applySnapshot (snapshot : Snapshot) : TrackedStorage σ × Option TrackErr :=
  match S.applySnapshot t.storage snapshot with
  | .error err => (t,some (.storage err))
  | .ok storage =>
    let t' := { t with storage, generation := t.generation + 1 }
    if snapshot.metadata.index > t.durableCommit then
      ({ t' with
          committed := t.committed ++ (t.advance snapshot.metadata.index).map (snapshotRec snapshot)
          durableCommit := snapshot.metadata.index },none)
    else (t',none)

/-- Whether a record still lacks the term in which it was committed. -/
def lacks (commit commitTerm : Nat) (rec : CommittedRec) : Bool :=
  rec.index ≤ commit && rec.commitTerm == 0 && commitTerm != 0

/-- The record of an index that the hard state commits. -/
def advanceRec (snapshot : Snapshot) (commitTerm index : Nat) : Except TrackErr CommittedRec :=
  match S.entries t.storage index (index + 1) with
  | .ok [e] => .ok { index, commitTerm, term := e.term, digest := fnv64 e.data, termKnown := true, dataKnown := true }
  | _ =>
    let known : CommittedRec := match S.term t.storage index with
      | .ok term => { index, commitTerm, term, termKnown := true }
      | .error _ => { index, commitTerm }
    if snapshot.metadata.index < index then .error (.unavailableIndex index) else .ok known

def recordCommitAdvance (commit commitTerm : Nat) : TrackedStorage σ × Option TrackErr :=
  if commit ≤ t.durableCommit then
    let enrich : CommittedRec → CommittedRec := fun rec =>
      if lacks commit commitTerm rec then { rec with commitTerm } else rec
    let enriched := (t.committed.filter (lacks commit commitTerm)).map enrich
    ({ t with committed := t.committed.map enrich ++ enriched },none)
  else
    -- The error is dropped there too.
    let snapshot := (S.snapshot t.storage).toOption.getD {}
    match (t.advance commit).mapM (t.advanceRec S snapshot commitTerm) with
    | .error err => (t,some err)
    | .ok records => ({ t with committed := t.committed ++ records, durableCommit := commit },none)

def setHardState (hs : HardState) : TrackedStorage σ × Option TrackErr :=
  match S.setHardState t.storage hs with
  | .error err => (t,some (.storage err))
  | .ok storage =>
    recordCommitAdvance S { t with storage, generation := t.generation + 1 } hs.commit hs.term

end TrackedStorage

inductive StorageCall
  | appendEntries (entries : List Entry)
  | applySnapshot (snapshot : Snapshot)
  | setHardState (hs : HardState)

/-- The storage after a call, whether it fails or not. -/
def TrackedStorage.call {σ : Type} (S : LogStorage σ) (t : TrackedStorage σ) : StorageCall → TrackedStorage σ
  | .appendEntries entries => (t.appendEntries S entries).1
  | .applySnapshot snapshot => (t.applySnapshot S snapshot).1
  | .setHardState hs => (t.setHardState S hs).1

inductive Fact
  | covered (index : Nat)
  | term (index term : Nat)
  | digest (index : Nat) (digest : UInt64)
  | commitTerm (index term : Nat)

def CommittedRec.facts (rec : CommittedRec) : Set Fact :=
  {f | f = .covered rec.index ∨ (rec.termKnown = true ∧ f = .term rec.index rec.term) ∨
    (rec.dataKnown = true ∧ f = .digest rec.index rec.digest) ∨
    (rec.commitTerm ≠ 0 ∧ f = .commitTerm rec.index rec.commitTerm)}

def facts (recs : List CommittedRec) : Set Fact := {f | ∃ rec ∈ recs, f ∈ rec.facts}

@[simp] theorem facts_nil : facts [] = ∅ := by simp [facts]

@[simp] theorem facts_append (recs recs' : List CommittedRec) : facts (recs ++ recs') = facts recs ∪ facts recs' := by
  ext f
  simp only [facts,List.mem_append,Set.mem_ofPred_eq,Set.mem_union]
  constructor
  · rintro ⟨rec,h | h,hf⟩
    · exact .inl ⟨rec,h,hf⟩
    · exact .inr ⟨rec,h,hf⟩
  rintro (⟨rec,h,hf⟩ | ⟨rec,h,hf⟩)
  · exact ⟨rec,.inl h,hf⟩
  · exact ⟨rec,.inr h,hf⟩

@[simp] theorem facts_cons (rec : CommittedRec) (recs : List CommittedRec) :
    facts (rec :: recs) = rec.facts ∪ facts recs := by
  have h : facts [rec] = rec.facts := by
    ext f
    simp [facts]
  rw [← List.singleton_append,facts_append,h]

/-- The storage after a call: another generation unless it is the same, and the records are those from before, where
what they have gained is told again by the new ones. -/
structure Grows {σ : Type} (t t' : TrackedStorage σ) : Prop where
  generation : t.generation ≤ t'.generation
  same : t'.generation = t.generation → t'.storage = t.storage
  records : ∃ (enrich : CommittedRec → CommittedRec) (extra : List CommittedRec),
    t'.committed = t.committed.map enrich ++ extra ∧
      ∀ r ∈ t.committed, r.facts ⊆ (enrich r).facts ∧ (enrich r).facts ⊆ r.facts ∪ facts extra

namespace Grows
variable {σ : Type} {S : LogStorage σ} {t : TrackedStorage σ}

theorem of_append {t t' : TrackedStorage σ} (extra : List CommittedRec) (hgen : t.generation < t'.generation)
    (hrec : t'.committed = t.committed ++ extra) : Grows t t' where
  generation := hgen.le
  same h := absurd h hgen.ne'
  records := ⟨id,extra,by rw [hrec,List.map_id],fun _ _ => ⟨subset_rfl,Set.subset_union_left⟩⟩

theorem refl (t : TrackedStorage σ) : Grows t t where
  generation := le_rfl
  same _ := rfl
  records := ⟨id,[],by simp,fun _ _ => ⟨subset_rfl,Set.subset_union_left⟩⟩

theorem appendEntries (entries : List Entry) : Grows t (t.appendEntries S entries).1 := by
  unfold TrackedStorage.appendEntries
  split
  · exact refl t
  · exact of_append [] (Nat.lt_succ_self _) (by simp)

theorem applySnapshot (snapshot : Snapshot) : Grows t (t.applySnapshot S snapshot).1 := by
  unfold TrackedStorage.applySnapshot
  split
  · exact refl t
  split
  · exact of_append _ (Nat.lt_succ_self _) rfl
  · exact of_append [] (Nat.lt_succ_self _) (by simp)

theorem facts_enrich {recs : List CommittedRec} {commit commitTerm : Nat} {r : CommittedRec} (hr : r ∈ recs) :
    let enrich : CommittedRec → CommittedRec := fun r =>
      if TrackedStorage.lacks commit commitTerm r then { r with commitTerm } else r
    r.facts ⊆ (enrich r).facts ∧
      (enrich r).facts ⊆ r.facts ∪ facts ((recs.filter (TrackedStorage.lacks commit commitTerm)).map enrich) := by
  intro enrich
  by_cases hl : TrackedStorage.lacks commit commitTerm r
  · have henrich : enrich r = { r with commitTerm } := if_pos hl
    have hzero : r.commitTerm = 0 := by
      simp only [TrackedStorage.lacks,Bool.and_eq_true,beq_iff_eq] at hl
      exact hl.1.2
    refine ⟨?_,fun f hf => .inr ⟨enrich r,List.mem_map_of_mem (List.mem_filter.mpr ⟨hr,hl⟩),hf⟩⟩
    rw [henrich]
    rintro f (h | h | h | ⟨h,_⟩)
    · exact .inl h
    · exact .inr (.inl h)
    · exact .inr (.inr (.inl h))
    · exact absurd hzero h
  have henrich : enrich r = r := if_neg hl
  rw [henrich]
  exact ⟨subset_rfl,Set.subset_union_left⟩

theorem setHardState (hs : HardState) : Grows t (t.setHardState S hs).1 := by
  unfold TrackedStorage.setHardState
  split
  · exact refl t
  unfold TrackedStorage.recordCommitAdvance
  split
  · exact ⟨Nat.le_succ _,fun h => absurd h (Nat.succ_ne_self _),_,_,rfl,fun r => facts_enrich⟩
  dsimp only
  split
  · exact of_append [] (Nat.lt_succ_self _) (by simp)
  · exact of_append _ (Nat.lt_succ_self _) rfl

theorem trans {t t' t'' : TrackedStorage σ} (h : Grows t t') (h' : Grows t' t'') : Grows t t'' where
  generation := h.generation.trans h'.generation
  same hgen := by
    have hle := h.generation
    have hle' := h'.generation
    rw [h'.same (by omega),h.same (by omega)]
  records := by
    obtain ⟨enrich,extra,hrec,hfacts⟩ := h.records
    obtain ⟨enrich',extra',hrec',hfacts'⟩ := h'.records
    have hextra : ∀ r ∈ extra, r.facts ⊆ (enrich' r).facts := fun r hr =>
      (hfacts' r (by rw [hrec]; exact List.mem_append_right _ hr)).1
    refine ⟨enrich' ∘ enrich,extra.map enrich' ++ extra',by rw [hrec',hrec]; simp,fun r hr => ?_⟩
    obtain ⟨hsub,hsup⟩ := hfacts r hr
    obtain ⟨hsub',hsup'⟩ := hfacts' (enrich r) (by rw [hrec]; exact List.mem_append_left _ (List.mem_map_of_mem hr))
    refine ⟨hsub.trans hsub',fun f hf => ?_⟩
    rw [facts_append]
    rcases hsup' hf with hf | hf
    · exact (hsup hf).imp_right fun ⟨r',hr',hf⟩ => .inl ⟨enrich' r',List.mem_map_of_mem hr',hextra r' hr' hf⟩
    · exact .inr (.inr hf)

private theorem call (S : LogStorage σ) (t : TrackedStorage σ) (c : StorageCall) : Grows t (t.call S c) := by
  cases c with
  | appendEntries entries => exact appendEntries entries
  | applySnapshot snapshot => exact applySnapshot snapshot
  | setHardState hs => exact setHardState hs

theorem calls (S : LogStorage σ) (t : TrackedStorage σ) (cs : List StorageCall) :
    Grows t (cs.foldl (TrackedStorage.call S) t) := by
  induction cs generalizing t with
  | nil => exact refl t
  | cons c cs ih => exact (call S t c).trans (ih _)

end Grows
end Parallax.Sim
