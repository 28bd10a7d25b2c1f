import Mathlib.Data.List.Chain
import Mathlib.Data.List.Induction
import Parallax.Disk.Wal

/-! The records of a log apart from their bytes, and what replaying them rebuilds. Entries at or
below the snapshot that is loaded first are skipped, so the result depends on its index. -/
namespace Parallax.Disk
open Scan

inductive Record where
  | entry (e : Entry)
  | hardState (st : HardState)
  | truncate (md : SnapshotMetadata)
  deriving DecidableEq, Repr

namespace Record

def payload : Record → Bytes
  | .entry e => encodeEntry e
  | .hardState st => encodeHardState st
  | .truncate md => encodeTruncateSuffix md

/-- Its numbers are 64-bit words and its payload is within the bound. -/
def Fits : Record → Prop
  | .entry e => EntryFits e
  | .hardState st => U64 st.term ∧ U64 st.vote ∧ U64 st.commit
  | .truncate md => U64 md.index ∧ U64 md.term

instance : (r : Record) → Decidable r.Fits
  | .entry _ => inferInstanceAs (Decidable (_ ∧ _ ∧ _))
  | .hardState _ => inferInstanceAs (Decidable (_ ∧ _ ∧ _))
  | .truncate _ => inferInstanceAs (Decidable (_ ∧ _))

/-- The record in a payload. -/
def parse : Bytes → Option Record
  | [] => none
  | tag :: body =>
    if tag = recEntry then (decodeEntry body).map .entry
    else if tag = recHardState then (decodeHardState body).map .hardState
    else if tag = recTruncateSuffix then (decodeTruncateSuffix body).map .truncate
    else none

private theorem parse_payload {r : Record} (h : r.Fits) : parse r.payload = some r := by
  cases r with
  | entry e =>
    rw [payload,show encodeEntry e = recEntry :: (encodeEntry e).drop 1 by simp [encodeEntry]]
    simp only [parse,if_true,decodeEntry_encodeEntry h,Option.map_some]
  | hardState st =>
    rw [payload,show encodeHardState st = recHardState :: (encodeHardState st).drop 1 by simp [encodeHardState]]
    simp only [parse,if_neg (show recHardState ≠ recEntry by decide),if_true,
      decodeHardState_encodeHardState h.1 h.2.1 h.2.2,Option.map_some]
  | truncate md =>
    rw [payload,show encodeTruncateSuffix md = recTruncateSuffix :: (encodeTruncateSuffix md).drop 1 by
      simp [encodeTruncateSuffix]]
    simp only [parse,if_neg (show recTruncateSuffix ≠ recEntry by decide),
      if_neg (show recTruncateSuffix ≠ recHardState by decide),if_true,
      decodeTruncateSuffix_encodeTruncateSuffix h.1 h.2,Option.map_some]

theorem Fits.payload {r : Record} (h : r.Fits) : Disk.Fits r.payload := by
  cases r with
  | entry e => exact ⟨by rw [Record.payload,length_encodeEntry]; omega,h.2.2⟩
  | hardState st => exact ⟨by simp [Record.payload,encodeHardState],by simp [Record.payload,encodeHardState,sanityMaxPayload]⟩
  | truncate md => exact ⟨by simp [Record.payload,encodeTruncateSuffix],by simp [Record.payload,encodeTruncateSuffix,sanityMaxPayload]⟩

end Record

/-- The frames of `rs`. -/
def bytes (rs : List Record) : Bytes := (rs.map Record.payload).flatMap frame

@[simp] theorem bytes_nil : bytes [] = [] := rfl

@[simp] theorem bytes_append (rs rs' : List Record) : bytes (rs ++ rs') = bytes rs ++ bytes rs' := by
  simp [bytes]

@[simp] theorem bytes_singleton (r : Record) : bytes [r] = frame r.payload := by simp [bytes]

theorem bytes_eq_nil {rs : List Record} : bytes rs = [] ↔ rs = [] := by
  constructor
  · intro h
    cases rs with
    | nil => rfl
    | cons r rs =>
      have := congrArg List.length h
      simp [bytes,frameHeaderSize] at this
  · rintro rfl
    rfl

theorem appendFrame_bytes (rs : List Record) (r : Record) :
    appendFrame (bytes rs) r.payload = bytes (rs ++ [r]) := by
  simp [appendFrame]

theorem fits_payload {rs : List Record} (h : ∀ r ∈ rs, r.Fits) : ∀ p ∈ rs.map Record.payload, Fits p := by
  intro p hp
  obtain ⟨r,hr,rfl⟩ := List.mem_map.mp hp
  exact (h r hr).payload

/-- What is left of the frames cut off after `k` bytes. -/
theorem bytes_take {rs : List Record} (h : ∀ r ∈ rs, r.Fits) (k : Nat) :
    ∃ j t, j ≤ rs.length ∧ Stub frame Fits t ∧ (bytes rs).take k = bytes (rs.take j) ++ t ∧
      (j < rs.length → k < (bytes (rs.take (j + 1))).length) := by
  obtain ⟨j,t,hj,ht,htake,hnext⟩ := take_flatMap frame (fits_payload h) k
  rw [List.length_map] at hj hnext
  rw [← List.map_take] at htake hnext
  exact ⟨j,t,hj,ht,htake,hnext⟩

/-- The records in the leading frames of a segment that can be read, and the place of the first
that cannot. -/
def recordsUpTo (data : Bytes) : List Record × Option Nat := parsed readFrame Record.parse data (data.length + 1) 0

def segmentRecords (data : Bytes) : List Record := (recordsUpTo data).1

theorem recordsUpTo_bytes {rs : List Record} (h : ∀ r ∈ rs, r.Fits) {t : Bytes} (ht : Stub frame Fits t) :
    recordsUpTo (bytes rs ++ t) = (rs,if t = [] then none else some (bytes rs).length) := by
  refine frames.parsed_stub (fits_payload h) ?_ ht (by rw [List.length_append,bytes]; omega)
  rw [List.map_map]
  exact List.map_congr_left fun r hr => Record.parse_payload (h r hr)

/-- The records in all segments. -/
def Dir.records (d : Dir) : List Record := (listing d.segs).flatMap fun n => segmentRecords (readFile d.segs n)

namespace Mirror

def redo (m : Mirror) : Record → Option Mirror
  | .entry e => m.applyEntryRecord e
  | .hardState st => some { m with hardState := st }
  | .truncate md =>
    let m := m.truncateSuffix md.index
    some (if m.snapshotTruncationPending ∧ md = m.snapshot.metadata then
      { m with snapshotTruncationPending := false } else m)

theorem applyRecord_eq (m : Mirror) (p : Bytes) : m.applyRecord p = (Record.parse p).bind m.redo := by
  cases p with
  | nil => rfl
  | cons tag body =>
    simp only [applyRecord,Record.parse]
    split_ifs
    · cases decodeEntry body <;> rfl
    · cases decodeHardState body <;> rfl
    · cases decodeTruncateSuffix body <;> rfl
    · rfl

theorem applyRecord_payload (m : Mirror) {r : Record} (h : r.Fits) : m.applyRecord r.payload = m.redo r := by
  rw [applyRecord_eq,Record.parse_payload h,Option.bind_some]

theorem feed_payload {rs : List Record} (h : ∀ r ∈ rs, r.Fits) (m : Mirror) :
    feed applyRecord m (rs.map Record.payload) = feed redo m rs := by
  induction rs generalizing m with
  | nil => rfl
  | cons r rs ih =>
    rw [List.map_cons,feed_cons,feed_cons,applyRecord_payload m (h r (by simp))]
    congr 1
    funext m'
    exact ih (fun r' hr' => h r' (by simp [hr'])) m'

end Mirror

/-- What one record does to the entries above the snapshot index `off`. -/
def logStep (off : Nat) (es : List Entry) : Record → Option (List Entry)
  | .entry e =>
    if e.index ≤ off then some es
    else if e.index - (off + 1) > es.length then none
    else some (es.take (e.index - (off + 1)) ++ [e])
  | .hardState _ => some es
  | .truncate md =>
    some (if md.index ≤ off then [] else if md.index - off < es.length then es.take (md.index - off) else es)

/-- The entries above `off` that `rs` rebuild. -/
def logOf (off : Nat) (rs : List Record) : Option (List Entry) := feed (logStep off) [] rs

def hardStep (st : HardState) : Record → HardState
  | .hardState st => st
  | _ => st

/-- The last hard state recorded. -/
def hardOf (rs : List Record) : HardState := rs.foldl hardStep {}

@[simp] theorem hardOf_append (rs rs' : List Record) : hardOf (rs ++ rs') = rs'.foldl hardStep (hardOf rs) :=
  List.foldl_append

theorem hardOf_entries (rs : List Record) (es : List Entry) : hardOf (rs ++ es.map .entry) = hardOf rs := by
  induction es generalizing rs with
  | nil => simp
  | cons e es ih =>
    rw [List.map_cons,← List.singleton_append,← List.append_assoc,ih,hardOf_append]
    rfl

theorem logOf_append (off : Nat) (rs rs' : List Record) :
    logOf off (rs ++ rs') = (logOf off rs).bind (feed (logStep off) · rs') := feed_append ..

namespace Mirror

private theorem redo_eq (m : Mirror) (r : Record) :
    m.redo r = (logStep m.offset m.entries r).map fun es =>
      { m with
        entries := es
        hardState := hardStep m.hardState r
        snapshotTruncationPending := m.snapshotTruncationPending && r != .truncate m.snapshot.metadata } := by
  cases r with
  | entry e =>
    simp only [redo,applyEntryRecord,logStep,hardStep]
    split
    · cases m; simp
    · split <;> simp
  | hardState st => simp [redo,logStep,hardStep]
  | truncate md =>
    have hm : m.truncateSuffix md.index = { m with
        entries := if md.index ≤ m.offset then [] else
          if md.index - m.offset < m.entries.length then m.entries.take (md.index - m.offset) else m.entries } := by
      simp only [truncateSuffix]
      split
      · rfl
      · split <;> rfl
    simp only [redo,hm,logStep,hardStep,Option.map_some,Option.some.injEq]
    cases hp : m.snapshotTruncationPending with
    | false => simp
    | true =>
      by_cases hmd : md = m.snapshot.metadata
      · simp [hmd]
      · simp [hmd]

/-- Replaying on a freshly loaded snapshot. -/
theorem feed_redo (m : Mirror) (rs : List Record) :
    feed redo m rs = (feed (logStep m.offset) m.entries rs).map fun es =>
      { m with
        entries := es
        hardState := rs.foldl hardStep m.hardState
        snapshotTruncationPending :=
          m.snapshotTruncationPending && decide (.truncate m.snapshot.metadata ∉ rs) } := by
  induction rs generalizing m with
  | nil => simp
  | cons r rs ih =>
    rw [feed_cons,feed_cons,redo_eq]
    cases hs : logStep m.offset m.entries r with
    | none => rfl
    | some es =>
      simp only [Option.map_some,Option.bind_some]
      rw [ih]
      congr 1
      funext es'
      simp only [Mirror.mk.injEq,List.foldl_cons,List.mem_cons,true_and]
      by_cases hr : r = .truncate m.snapshot.metadata
      · simp [hr]
      · simp [Ne.symm hr,bne_iff_ne.mpr hr]

end Mirror

/-- Markers are written for snapshots that are loaded or older than the loaded one. -/
def MarkedBelow (off : Nat) (rs : List Record) : Prop := ∀ md, .truncate md ∈ rs → md.index ≤ off

/-- `es'` above `off'` is what remains of `es` above `off`, if anything does. -/
def Remains (k : Nat) (es es' : List Entry) : Prop := es.drop k ≠ [] → es' = es.drop k

private theorem logStep_later {off off' : Nat} (ho : off ≤ off') {r : Record} {es es' es₁ : List Entry}
    (h : Remains (off' - off) es es') (hs : logStep off es r = some es₁) :
    ∃ es₁', logStep off' es' r = some es₁' ∧ Remains (off' - off) es₁ es₁' := by
  cases r with
  | entry e =>
    simp only [logStep] at hs ⊢
    by_cases h₀ : e.index ≤ off
    · rw [if_pos h₀] at hs
      obtain rfl := Option.some.inj hs
      exact ⟨es',if_pos (by omega),h⟩
    rw [if_neg h₀] at hs
    split at hs
    · cases hs
    rename_i hgap
    obtain rfl := Option.some.inj hs
    have hlen : (es.take (e.index - (off + 1))).length = e.index - (off + 1) := List.length_take_of_le (by omega)
    by_cases h₁ : e.index ≤ off'
    · refine ⟨es',if_pos h₁,fun hne => absurd ?_ hne⟩
      exact List.drop_eq_nil_of_le (by rw [List.length_append,hlen,List.length_singleton]; omega)
    rw [if_neg h₁]
    have hdrop : (es.take (e.index - (off + 1)) ++ [e]).drop (off' - off) =
        (es.drop (off' - off)).take (e.index - (off' + 1)) ++ [e] := by
      rw [List.drop_append_of_le_length (by omega),List.drop_take]
      congr 2
      omega
    -- The new entry either starts the log above `off'` or follows what remains there.
    by_cases hpos : e.index - (off' + 1) = 0
    · refine ⟨[e],by rw [if_neg (by omega),hpos,List.take_zero,List.nil_append],fun _ => ?_⟩
      rw [hdrop,hpos,List.take_zero,List.nil_append]
    have hes : es' = es.drop (off' - off) := h (List.ne_nil_of_length_pos (by rw [List.length_drop]; omega))
    refine ⟨_,if_neg (by rw [hes,List.length_drop]; omega),fun _ => ?_⟩
    rw [hdrop,hes]
  | hardState st =>
    obtain rfl := Option.some.inj hs
    exact ⟨es',rfl,h⟩
  | truncate md =>
    simp only [logStep,Option.some.injEq] at hs
    subst hs
    -- A marker up to `off'` leaves nothing above it, a later one cuts both logs at the same index.
    by_cases hmd : md.index ≤ off'
    · refine ⟨[],by simp [logStep,hmd],fun hne => absurd ?_ hne⟩
      split_ifs
      · exact List.drop_nil
      · exact List.drop_eq_nil_of_le (by rw [List.length_take]; omega)
      · exact List.drop_eq_nil_of_le (by omega)
    refine ⟨_,by simp only [logStep]; rw [if_neg hmd],?_⟩
    rw [if_neg (by omega)]
    intro hne
    have hes : es' = es.drop (off' - off) := h fun hnil => hne (by
      rw [List.drop_eq_nil_iff] at hnil ⊢
      split_ifs
      · rw [List.length_take]
        omega
      · exact hnil)
    rw [hes,List.length_drop]
    by_cases hlt : md.index - off < es.length
    · rw [if_pos hlt,if_pos (by omega),List.drop_take]
      congr 1
      omega
    · rw [if_neg hlt,if_neg (by omega)]

theorem logOf_later {off off' : Nat} (ho : off ≤ off') {rs : List Record} {es : List Entry}
    (h : logOf off rs = some es) : ∃ es', logOf off' rs = some es' ∧ Remains (off' - off) es es' :=
  feed_follows (R := Remains (off' - off)) (fun r _ _ _ _ hrel hs => logStep_later (r := r) ho hrel hs)
    (fun hne => absurd List.drop_nil hne) h

/-- Indices recorded since the last marker. -/
def sinceMarker (rs : List Record) : List Nat :=
  rs.foldl (fun is => fun
    | .entry e => is ++ [e.index]
    | .hardState _ => is
    | .truncate _ => []) []

theorem sinceMarker_snoc (rs : List Record) (r : Record) :
    sinceMarker (rs ++ [r]) = match r with
      | .entry e => sinceMarker rs ++ [e.index]
      | .hardState _ => sinceMarker rs
      | .truncate _ => [] := by
  rw [sinceMarker,List.foldl_append]
  rfl

theorem sinceMarker_entries (rs : List Record) (es : List Entry) :
    sinceMarker (rs ++ es.map .entry) = sinceMarker rs ++ es.map Entry.index := by
  induction es generalizing rs with
  | nil => simp
  | cons e es ih =>
    rw [List.map_cons,← List.singleton_append,← List.append_assoc,ih,sinceMarker_snoc]
    simp

theorem logOf_eq_nil {off : Nat} {rs : List Record} (hm : MarkedBelow off rs) {es : List Entry}
    (h : logOf off rs = some es) : es = [] ↔ ∀ i ∈ sinceMarker rs, i ≤ off := by
  induction rs using List.reverseRecOn generalizing es with
  | nil =>
    obtain rfl := Option.some.inj h
    simp [sinceMarker]
  | append_singleton rs r ih =>
    rw [logOf_append] at h
    obtain ⟨es₀,h₀,hs⟩ := Option.bind_eq_some_iff.mp h
    have ih := ih (fun md hmd => hm md (by simp [hmd])) h₀
    rw [feed_singleton] at hs
    rw [sinceMarker_snoc]
    cases r with
    | entry e =>
      simp only [logStep] at hs
      split at hs
      · rename_i he
        obtain rfl := Option.some.inj hs
        simp only [List.mem_append,List.mem_singleton,or_imp,forall_and,forall_eq,ih]
        exact ⟨fun h => ⟨h,he⟩,And.left⟩
      rename_i he
      split at hs
      · cases hs
      obtain rfl := Option.some.inj hs
      refine ⟨fun h => absurd h (by simp),fun h => absurd (h e.index (by simp)) he⟩
    | hardState st =>
      obtain rfl := Option.some.inj hs
      exact ih
    | truncate md =>
      have hmd := hm md (by simp)
      simp only [logStep,if_pos hmd,Option.some.injEq] at hs
      simp [← hs]

/-- Indices grow by one. -/
def Contiguous (es : List Entry) : Prop := es.IsChain fun a b => b.index = a.index + 1

instance (es : List Entry) : Decidable (Contiguous es) := inferInstanceAs (Decidable (es.IsChain _))

theorem Contiguous.getElem {es : List Entry} {first : Entry} (h : Contiguous (first :: es)) :
    ∀ i e, (first :: es)[i]? = some e → e.index = first.index + i := by
  induction es generalizing first with
  | nil =>
    intro i e he
    cases i with
    | zero => simp at he; simp [he]
    | succ i => simp at he
  | cons second es ih =>
    intro i e he
    have h2 := List.isChain_cons_cons.mp h
    cases i with
    | zero => simp at he; simp [he]
    | succ i =>
      have := ih h2.2 i e (by simpa using he)
      omega

theorem feed_batch {off : Nat} {es : List Entry} : ∀ {old : List Entry} {first : Entry},
    Contiguous (first :: es) → off < first.index → first.index - (off + 1) ≤ old.length →
      feed (logStep off) old ((first :: es).map .entry) = some (old.take (first.index - (off + 1)) ++ first :: es) := by
  induction es with
  | nil =>
    intro old first _ hoff hpos
    simp only [List.map_cons,List.map_nil,feed_singleton,logStep]
    rw [if_neg (by omega),if_neg (by omega)]
  | cons second es ih =>
    intro old first hc hoff hpos
    have hc2 := List.isChain_cons_cons.mp hc
    have hlen : (old.take (first.index - (off + 1))).length = first.index - (off + 1) := List.length_take_of_le hpos
    rw [List.map_cons,feed_cons]
    simp only [logStep]
    rw [if_neg (by omega),if_neg (by omega),Option.bind_some,
      ih hc2.2 (by omega) (by rw [List.length_append,hlen,List.length_singleton]; omega)]
    rw [List.take_of_length_le (by rw [List.length_append,hlen,List.length_singleton]; omega)]
    simp

end Parallax.Disk
