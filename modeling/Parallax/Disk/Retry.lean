import Parallax.Disk.Reopen

/-! A Sync that failed and is tried again. The buffer is kept whole, so what had reached the segment stands in
front of it when it is written again. -/
namespace Parallax.Disk
open Scan

/-- The entries recorded in `rs`. -/
def entriesOf (rs : List Record) : List Entry :=
  rs.filterMap fun
    | .entry e => some e
    | _ => none

/-- The hard states recorded in `rs`. -/
def hardStatesOf (rs : List Record) : List HardState :=
  rs.filterMap fun
    | .hardState st => some st
    | _ => none

@[simp] theorem entriesOf_append (rs rs' : List Record) : entriesOf (rs ++ rs') = entriesOf rs ++ entriesOf rs' :=
  List.filterMap_append

@[simp] theorem hardStatesOf_append (rs rs' : List Record) :
    hardStatesOf (rs ++ rs') = hardStatesOf rs ++ hardStatesOf rs' :=
  List.filterMap_append

private theorem entriesOf_entry (e : Entry) : entriesOf [.entry e] = [e] := rfl

/-- A record that calls buffer while the snapshot is at `off`. -/
def Record.Above (off : Nat) : Record → Prop
  | .entry e => off < e.index
  | .hardState _ => True
  | .truncate _ => False

/-- The last entry recorded for the index `i`. -/
def written (rs : List Record) (i : Nat) : Option Entry := ((entriesOf rs).filter (·.index = i)).getLast?

private theorem written_append (rs rs' : List Record) (i : Nat) :
    written (rs ++ rs') i = (written rs' i).or (written rs i) := by
  rw [written,entriesOf_append,List.filter_append,List.getLast?_append]
  rfl

theorem logOf_getElem? {off : Nat} {rs : List Record} {es : List Entry} (h : logOf off rs = some es) :
    ∀ k < es.length, es[k]? = written rs (off + 1 + k) := by
  induction rs using List.reverseRecOn generalizing es with
  | nil =>
    obtain rfl := Option.some.inj h
    simp
  | append_singleton rs r ih =>
    rw [logOf_append] at h
    obtain ⟨es₀,h₀,hs⟩ := Option.bind_eq_some_iff.mp h
    rw [feed_singleton] at hs
    have ih := ih h₀
    intro k hk
    rw [written_append]
    cases r with
    | entry e =>
      have hother : e.index ≠ off + 1 + k → written [.entry e] (off + 1 + k) = none := by
        intro hne
        simp [written,entriesOf,hne]
      simp only [logStep] at hs
      split at hs
      · obtain rfl := Option.some.inj hs
        rw [hother (by omega),Option.none_or]
        exact ih k hk
      split at hs
      · cases hs
      rename_i hgap
      obtain rfl := Option.some.inj hs
      have hlen : (es₀.take (e.index - (off + 1))).length = e.index - (off + 1) := List.length_take_of_le (by omega)
      rw [List.length_append,hlen,List.length_singleton] at hk
      rcases Nat.lt_or_ge k (e.index - (off + 1)) with hlt | hge
      · rw [List.getElem?_append_left (by omega),List.getElem?_take_of_lt hlt,hother (by omega),Option.none_or]
        exact ih k (by omega)
      have hi : e.index = off + 1 + k := by omega
      rw [List.getElem?_append_right (by omega),hlen,show k - (e.index - (off + 1)) = 0 by omega]
      simp [written,entriesOf,hi]
    | hardState st =>
      obtain rfl := Option.some.inj hs
      exact ih k hk
    | truncate md =>
      obtain rfl := Option.some.inj hs
      refine Eq.trans ?_ (ih k ?_)
      all_goals split_ifs at hk ⊢ <;> simp_all

theorem feed_length {off : Nat} {rs : List Record} (hrs : ∀ r ∈ rs, r.Above off) {es₀ es : List Entry}
    (h : feed (logStep off) es₀ rs = some es) :
    es.length = ((entriesOf rs).getLast?.map fun e => e.index - off).getD es₀.length := by
  induction rs using List.reverseRecOn generalizing es with
  | nil =>
    obtain rfl := Option.some.inj h
    rfl
  | append_singleton rs r ih =>
    rw [feed_append] at h
    obtain ⟨es₁,h₁,hs⟩ := Option.bind_eq_some_iff.mp h
    rw [feed_singleton] at hs
    have ih := ih (fun r hr => hrs r (by simp [hr])) h₁
    have hr := hrs r (by simp)
    rw [entriesOf_append]
    cases r with
    | entry e =>
      have hoff : off < e.index := hr
      simp only [logStep,if_neg (Nat.not_le.mpr hoff)] at hs
      split at hs
      · cases hs
      obtain rfl := Option.some.inj hs
      rw [entriesOf_entry,List.getLast?_concat,Option.map_some,Option.getD_some,List.length_append,List.length_take,
        List.length_singleton]
      omega
    | hardState st =>
      obtain rfl := Option.some.inj hs
      simpa [entriesOf] using ih
    | truncate md => exact hr.elim

theorem feed_of_length {off : Nat} {rs : List Record} (hrs : ∀ r ∈ rs, r.Above off) {es es' es₁ : List Entry}
    (hlen : es.length = es₁.length) (h : feed (logStep off) es rs = some es') :
    ∃ es₁', feed (logStep off) es₁ rs = some es₁' := by
  have hstep : ∀ r ∈ rs, ∀ es es₁ es' : List Entry, es.length = es₁.length → logStep off es r = some es' →
      ∃ es₁', logStep off es₁ r = some es₁' ∧ es'.length = es₁'.length := by
    intro r hr es es₁ es' hlen hs
    cases r with
    | entry e =>
      have hoff : off < e.index := hrs _ hr
      simp only [logStep,if_neg (Nat.not_le.mpr hoff)] at hs ⊢
      split at hs
      · cases hs
      rename_i hgap
      obtain rfl := Option.some.inj hs
      rw [hlen] at hgap
      exact ⟨_,if_neg hgap,by simp [hlen]⟩
    | hardState st =>
      obtain rfl := Option.some.inj hs
      exact ⟨_,rfl,hlen⟩
    | truncate md => exact (hrs _ hr).elim
  obtain ⟨es₁',h',-⟩ := feed_follows hstep hlen h
  exact ⟨es₁',h'⟩

theorem feed_of_reaches {off : Nat} {rs : List Record} (hrs : ∀ r ∈ rs, r.Above off) {es es' es₁ : List Entry}
    (h : feed (logStep off) es rs = some es')
    (hfirst : ∀ e ∈ (entriesOf rs).head?, e.index - (off + 1) ≤ es₁.length) : ∃ es₁', feed (logStep off) es₁ rs = some es₁' := by
  induction rs generalizing es es₁ with
  | nil => exact ⟨es₁,rfl⟩
  | cons r rs ih =>
    have hrest : ∀ r' ∈ rs, r'.Above off := fun r' hr' => hrs r' (List.mem_cons_of_mem _ hr')
    have hr := hrs r List.mem_cons_self
    rw [feed_cons] at h ⊢
    obtain ⟨es₂,hs,h⟩ := Option.bind_eq_some_iff.mp h
    cases r with
    | entry e =>
      have hoff : off < e.index := hr
      have hle : e.index - (off + 1) ≤ es₁.length := hfirst e (by simp [entriesOf])
      simp only [logStep,if_neg (Nat.not_le.mpr hoff)] at hs ⊢
      split at hs
      · cases hs
      obtain rfl := Option.some.inj hs
      rw [if_neg (by omega),Option.bind_some]
      refine feed_of_length hrest ?_ h
      simp only [List.length_append,List.length_take]
      omega
    | hardState st =>
      obtain rfl := Option.some.inj hs
      exact ih hrest h hfirst
    | truncate md => exact hr.elim

theorem feed_reaches {off : Nat} {rs : List Record} (hrs : ∀ r ∈ rs, r.Above off) {es es' : List Entry}
    (h : feed (logStep off) es rs = some es') : ∀ e ∈ (entriesOf rs).head?, e.index - (off + 1) ≤ es.length := by
  induction rs generalizing es with
  | nil => simp [entriesOf]
  | cons r rs ih =>
    have hr := hrs r List.mem_cons_self
    rw [feed_cons] at h
    obtain ⟨es₂,hs,h⟩ := Option.bind_eq_some_iff.mp h
    cases r with
    | entry e =>
      have hoff : off < e.index := hr
      simp only [logStep,if_neg (Nat.not_le.mpr hoff)] at hs
      split at hs
      · cases hs
      intro e' he'
      obtain rfl : e = e' := by simpa [entriesOf] using he'
      omega
    | hardState st =>
      obtain rfl := Option.some.inj hs
      exact ih (fun r' hr' => hrs r' (List.mem_cons_of_mem _ hr')) h
    | truncate md => exact hr.elim

/-- The first entry of `rs` leaves no gap behind the last of `front`. -/
def Joins (front rs : List Record) : Prop :=
  ∀ last ∈ (entriesOf front).getLast?, ∀ first ∈ (entriesOf rs).head?, first.index ≤ last.index + 1

instance (front rs : List Record) : Decidable (Joins front rs) :=
  inferInstanceAs (Decidable (∀ last ∈ (entriesOf front).getLast?, ∀ first ∈ (entriesOf rs).head?, _))

theorem logOf_twice {off : Nat} {done pend : List Record} (hp : ∀ r ∈ pend, r.Above off) {j : Nat}
    (hj : Joins (pend.take j) pend) {es : List Entry} (h : logOf off (done ++ pend) = some es) :
    logOf off (done ++ pend.take j ++ pend) = some es := by
  have hfront : ∀ r ∈ pend.take j, r.Above off := fun r hr => hp r (List.mem_of_mem_take hr)
  obtain ⟨es₁,h₁⟩ : ∃ es₁, logOf off (done ++ pend.take j) = some es₁ := by
    rw [← List.take_append_drop j pend,← List.append_assoc] at h
    exact logOf_left h
  obtain ⟨es₀,h₀⟩ := logOf_left h₁
  have hfeed₁ := h₁
  rw [logOf_append,h₀,Option.bind_some] at hfeed₁
  have hlen₁ := feed_length hfront hfeed₁
  have hfeed := h
  rw [logOf_append,h₀,Option.bind_some] at hfeed
  have hlen := feed_length hp hfeed
  -- The copy changes no length that a later record meets.
  obtain ⟨es',h'⟩ : ∃ es', feed (logStep off) es₁ pend = some es' := by
    refine feed_of_reaches hp hfeed fun first hfirst => ?_
    cases hlast : (entriesOf (pend.take j)).getLast? with
    | none =>
      rw [hlast] at hlen₁
      exact Nat.le_trans (feed_reaches hp hfeed first hfirst) (Nat.le_of_eq hlen₁.symm)
    | some last =>
      rw [hlast] at hlen₁
      have := hj last hlast first hfirst
      simp only [Option.map_some,Option.getD_some] at hlen₁
      omega
  have hlen' := feed_length hp h'
  have htwice : logOf off (done ++ pend.take j ++ pend) = some es' := by rw [logOf_append,h₁,Option.bind_some,h']
  have hsub : (entriesOf (pend.take j)).Sublist (entriesOf pend) := (List.take_sublist j pend).filterMap _
  have hlength : es'.length = es.length := by
    rw [hlen',hlen]
    cases hlast : (entriesOf pend).getLast? with
    | some last => rfl
    | none =>
      rw [List.getLast?_eq_none_iff] at hlast
      rw [hlast,List.sublist_nil] at hsub
      rw [hsub] at hlen₁
      exact hlen₁
  have hwritten : ∀ i, written (done ++ pend.take j ++ pend) i = written (done ++ pend) i := by
    intro i
    rw [written_append,written_append,written_append]
    cases hw : written pend i with
    | some e => rfl
    | none =>
      rw [written,List.getLast?_eq_none_iff] at hw
      have hnone : written (pend.take j) i = none := by
        have := hsub.filter (·.index = i)
        rw [hw,List.sublist_nil] at this
        rw [written,this]
        rfl
      rw [hnone]
      rfl
  have heq : es' = es := by
    refine List.ext_getElem? fun k => ?_
    rcases Nat.lt_or_ge k es.length with hk | hk
    · rw [logOf_getElem? htwice k (by omega),logOf_getElem? h k hk,hwritten]
    · rw [List.getElem?_eq_none hk,List.getElem?_eq_none (by omega)]
  rw [htwice,heq]

private theorem foldl_hardStep (rs : List Record) (st : HardState) :
    rs.foldl hardStep st = (hardStatesOf rs).getLast?.getD st := by
  induction rs using List.reverseRecOn with
  | nil => rfl
  | append_singleton rs r ih =>
    rw [List.foldl_append,hardStatesOf_append,ih]
    cases r with
    | entry e => simp [hardStatesOf,hardStep]
    | hardState st => simp [hardStatesOf,hardStep]
    | truncate md => simp [hardStatesOf,hardStep]

private theorem hardOf_twice (done pend : List Record) (j : Nat) :
    hardOf (done ++ pend.take j ++ pend) = hardOf (done ++ pend) := by
  rw [hardOf_append,hardOf_append,hardOf_append,foldl_hardStep,foldl_hardStep,foldl_hardStep pend]
  cases hlast : (hardStatesOf pend).getLast? with
  | some st => rfl
  | none =>
    have hsub : (hardStatesOf (pend.take j)).Sublist (hardStatesOf pend) := (List.take_sublist j pend).filterMap _
    rw [List.getLast?_eq_none_iff.mp hlast,List.sublist_nil] at hsub
    rw [hsub]
    rfl

/-- `Sync` that fails with `k` bytes of the buffer in the segment: in `Write`, or, with all of them, in the
fsync behind it. Buffer and segment size stay. -/
def Storage.failSync (maxSegmentSize k : Nat) (s : Storage) : Storage :=
  if s.buf.length = 0 then s
  else
    let s := if s.segSize ≥ maxSegmentSize then s.rotateSegment (s.segSeq + 1) else s
    s.perform (.append s.segSeq (s.buf.take k))

inductive Attempt where
  | call (c : Call)
  | syncFails (k : Nat)
  deriving DecidableEq, Repr

/-- A call that returns an error of the log changes nothing. -/
def Storage.attempt (maxSegmentSize : Nat) (s : Storage) : Attempt → Storage
  | .call c =>
    match s.call maxSegmentSize c with
    | .ok s' => s'
    | .error _ => s
  | .syncFails k => s.failSync maxSegmentSize k

def Storage.attempts (maxSegmentSize : Nat) (s : Storage) (as : List Attempt) : Storage :=
  as.foldl (Storage.attempt maxSegmentSize) s

def Attempt.call? : Attempt → Option Call
  | .call c => some c
  | .syncFails _ => none

/-- The records in the buffer after an attempt, from those before it. -/
def Attempt.pending (maxSegmentSize : Nat) (s : Storage) (pend : List Record) : Attempt → List Record
  | .call (.appendEntries entries) =>
    match s.call maxSegmentSize (.appendEntries entries) with
    | .ok _ => pend ++ ((above s.offset entries).getD []).map .entry
    | .error _ => pend
  | .call (.setHardState st) => pend ++ [.hardState st]
  | .call (.applySnapshot _) => pend
  | .call .sync => []
  | .syncFails _ => pend

/-- The bytes that arrive are whole records, behind which the buffer can be replayed. -/
def Attempt.Clean (pend : List Record) : Attempt → Prop
  | .call _ => True
  | .syncFails k => ∃ j, (bytes pend).take k = bytes (pend.take j) ∧ Joins (pend.take j) pend

/-- Every failed Sync is clean. -/
def Storage.Clean (maxSegmentSize : Nat) (s : Storage) (pend : List Record) : List Attempt → Prop
  | [] => True
  | a :: as => a.Clean pend ∧ (s.attempt maxSegmentSize a).Clean maxSegmentSize (a.pending maxSegmentSize s pend) as

namespace Storage
variable {s : Storage} {flag : Bool} {done pend : List Record} {es : List Entry}

private theorem failSync_mirror (maxSegmentSize k : Nat) (s : Storage) :
    (s.failSync maxSegmentSize k).mirror = s.mirror := by
  unfold failSync
  split
  · rfl
  · simp only
    split <;> rfl

private theorem failSync_snaps (maxSegmentSize k : Nat) (s : Storage) :
    (s.failSync maxSegmentSize k).dir.snaps = s.dir.snaps := by
  unfold failSync
  split
  · rfl
  split
  · simp only [perform,rotateSegment,Dir.perform,Dir.edit]
    split <;> rfl
  · rfl

theorem Kept.fail (h : s.Kept done pend) (maxSegmentSize : Nat) {k j : Nat}
    (hj : (bytes pend).take k = bytes (pend.take j)) : (s.failSync maxSegmentSize k).Kept (done ++ pend.take j) pend := by
  obtain ⟨files,last,hl,rfl⟩ := h.laid
  have hfits : ∀ r ∈ pend.take j, r.Fits := fun r hr => h.fits r (List.mem_of_mem_take hr)
  unfold failSync
  split
  · rename_i hb
    have hb : pend = [] := by rw [← bytes_eq_nil,← h.buf]; exact List.length_eq_zero_iff.mp hb
    exact ⟨⟨files,last,hl,by simp [hb]⟩,h.buf,h.fits⟩
  split
  · refine ⟨⟨files ++ [(s.segSeq,last)],pend.take j,?_,by simp⟩,h.buf,h.fits⟩
    have := hl.create.append_all hfits
    rwa [← hj,← h.buf] at this
  refine ⟨⟨files,last ++ pend.take j,?_,by simp⟩,h.buf,h.fits⟩
  have := hl.append_all hfits
  rwa [← hj,← h.buf] at this

theorem Backed.fail (h : s.Backed flag done pend es) (hp : ∀ r ∈ pend, r.Above s.offset) (maxSegmentSize : Nat) {k j : Nat}
    (hj : (bytes pend).take k = bytes (pend.take j)) (hjoin : Joins (pend.take j) pend) :
    (s.failSync maxSegmentSize k).Backed flag (done ++ pend.take j) pend es := by
  have hm := failSync_mirror maxSegmentSize k s
  have hsnaps : (s.failSync maxSegmentSize k).dir.snaps = s.dir.snaps := failSync_snaps ..
  refine ⟨⟨h.toKept.fail maxSegmentSize hj,h.named.snaps_eq hsnaps,?_,?_,?_,?_,?_,?_⟩,?_,?_⟩
  · rw [offset,hm]
    exact h.topped.snaps_eq hsnaps
  · rw [hm]
    exact h.number
  · rw [offset,hm]
    exact logOf_twice hp hjoin h.log
  · rw [hm]
    exact h.entries
  · rw [hm,hardOf_twice]
    exact h.hard
  · rw [hm]
    exact h.settled
  · rw [hm]
    exact (h.newest.snaps_eq hsnaps).load
  · rw [hm]
    exact fun hf => List.mem_append_left _ (h.marked hf)

theorem Backed.attempt (h : s.Backed flag done pend s.mirror.entries) (hp : ∀ r ∈ pend, r.Above s.offset)
    {maxSegmentSize : Nat} {a : Attempt} (ha : ∀ c, a = .call c → c.Fits ∧ c.Appends) (hclean : a.Clean pend) :
    ∃ done', (s.attempt maxSegmentSize a).Backed flag done' (a.pending maxSegmentSize s pend)
        (s.attempt maxSegmentSize a).mirror.entries ∧
      ∀ r ∈ a.pending maxSegmentSize s pend, r.Above (s.attempt maxSegmentSize a).offset := by
  cases a with
  | syncFails k =>
    obtain ⟨j,hj,hjoin⟩ := hclean
    have hm : (s.attempt maxSegmentSize (.syncFails k)).mirror = s.mirror := failSync_mirror ..
    refine ⟨done ++ pend.take j,?_,?_⟩
    · rw [hm]
      exact h.fail hp maxSegmentSize hj hjoin
    · rw [offset,hm]
      exact hp
  | call c =>
    obtain ⟨hfits,happ⟩ := ha c rfl
    cases c with
    | appendEntries entries =>
      simp only [Storage.attempt,Attempt.pending]
      cases hs : s.call maxSegmentSize (.appendEntries entries) with
      | error err => exact ⟨done,h,hp⟩
      | ok s' =>
        rcases h.appendEntries hfits hs with ⟨hab,rfl⟩ | ⟨new,hab,hsnap,-,h'⟩
        · refine ⟨done,?_,?_⟩ <;> simpa [hab] using ‹_›
        · obtain ⟨first,rest,rfl,hsuf,hoff⟩ := hfits.1.above hab
          rw [hab,offset,hsnap]
          refine ⟨done,h',fun r hr => ?_⟩
          rcases List.mem_append.mp hr with hr | hr
          · exact hp r hr
          obtain ⟨e,he,rfl⟩ := List.mem_map.mp hr
          obtain ⟨k,hk⟩ := List.mem_iff_getElem?.mp he
          have := Contiguous.getElem (List.IsChain.suffix hfits.1 hsuf) k e hk
          exact Nat.lt_of_lt_of_le hoff (by omega)
    | setHardState st =>
      refine ⟨done,h.setHardState hfits,fun r hr => ?_⟩
      rcases List.mem_append.mp hr with hr | hr
      · exact hp r hr
      · rw [List.mem_singleton.mp hr]
        trivial
    | applySnapshot snap => exact happ.elim
    | sync =>
      have hm : (s.attempt maxSegmentSize (.call .sync)).mirror = s.mirror := syncBuffered_mirror ..
      refine ⟨done ++ pend,?_,by simp [Attempt.pending]⟩
      rw [hm]
      exact h.sync maxSegmentSize

theorem Backed.attempts {maxSegmentSize : Nat} {as : List Attempt} (ha : ∀ c, .call c ∈ as → c.Fits ∧ c.Appends)
    (h : s.Backed flag done pend s.mirror.entries) (hp : ∀ r ∈ pend, r.Above s.offset)
    (hclean : s.Clean maxSegmentSize pend as) :
    ∃ done' pend', (s.attempts maxSegmentSize as).Backed flag done' pend' (s.attempts maxSegmentSize as).mirror.entries := by
  induction as generalizing s done pend with
  | nil => exact ⟨done,pend,h⟩
  | cons a as ih =>
    obtain ⟨done',h',hp'⟩ := h.attempt hp (fun c hc => ha c (by simp [hc])) hclean.1
    exact ih (fun c hc => ha c (by simp [hc])) h' hp' hclean.2

theorem attempts_mirror (maxSegmentSize : Nat) (s : Storage) (as : List Attempt) :
    (s.attempts maxSegmentSize as).mirror.toStorage = (s.mirror.toStorage.run (as.filterMap Attempt.call?)).1 := by
  induction as generalizing s with
  | nil => rfl
  | cons a as ih =>
    rw [attempts,List.foldl_cons]
    refine (ih _).trans ?_
    cases a with
    | syncFails k => rw [Storage.attempt,failSync_mirror]; rfl
    | call c =>
      have hc := s.call_mirror maxSegmentSize c
      rw [List.filterMap_cons,Attempt.call?,Parallax.Storage.run,← hc,Storage.attempt]
      cases s.call maxSegmentSize c <;> rfl

end Storage

/-- In every run, a Sync that succeeds after clean failures makes everything buffered durable: `Open` finds
the state that the calls alone build. -/
theorem sync_durable_of_clean {maxSegmentSize : Nat} {s : Storage} (hs : Reach maxSegmentSize (.up s)) (hbuf : s.buf = [])
    (hself : (openDir maxSegmentSize s.dir).mirror = s.mirror) {as : List Attempt}
    (ha : ∀ c, .call c ∈ as → c.Fits ∧ c.Appends) (hclean : s.Clean maxSegmentSize [] as) :
    let s' := (s.attempts maxSegmentSize as).sync maxSegmentSize
    (openDir maxSegmentSize s'.dir).mirror = s'.mirror ∧
      s'.mirror.toStorage = (s.mirror.toStorage.run (as.filterMap Attempt.call?)).1 := by
  intro s'
  obtain ⟨flag,done,pend,es,h⟩ := hs.ok
  obtain rfl : pend = [] := by rw [← bytes_eq_nil,← h.buf,hbuf]
  have hes : es = s.mirror.entries := by
    rw [h.toBacked.reopen maxSegmentSize] at hself
    exact congrArg (·.entries) hself
  subst hes
  obtain ⟨done',pend',h'⟩ := h.toBacked.attempts ha (by simp) hclean
  have hm : s'.mirror = (s.attempts maxSegmentSize as).mirror := Storage.syncBuffered_mirror ..
  refine ⟨?_,by rw [hm,Storage.attempts_mirror]⟩
  rw [(h'.sync maxSegmentSize).reopen maxSegmentSize,hm]

/-- Two entries; the first Sync fails behind the first one; a third entry before the next Sync. -/
def retried : List Attempt :=
  [.call (.appendEntries [{ term := 1, index := 1 },{ term := 1, index := 2 }]),
    .syncFails (bytes [.entry { term := 1, index := 1 }]).length,.call (.appendEntries [{ term := 1, index := 3 }])]

theorem sync_durable_retried :
    let s' := ((openDir 0 {}).attempts 0 retried).sync 0
    (openDir 0 s'.dir).mirror.entries = [{ term := 1, index := 1 },{ term := 1, index := 2 },{ term := 1, index := 3 }] := by
  intro s'
  have ha : ∀ c, .call c ∈ retried → c.Fits ∧ c.Appends := by
    simp only [retried,List.mem_cons,Attempt.call.injEq,reduceCtorEq,List.not_mem_nil,or_false,false_or]
    rintro c (rfl | rfl) <;> decide
  have hclean : (openDir 0 {}).Clean 0 [] retried := ⟨trivial,⟨1,by decide +kernel,by decide +kernel⟩,trivial,trivial⟩
  obtain ⟨hopen,hrun⟩ := sync_durable_of_clean (.opened (.found rfl)) (by decide) (by decide +kernel) ha hclean
  have hentries : (({} : Mirror).toStorage.run (retried.filterMap Attempt.call?)).1.entries =
      [{ term := 1, index := 1 },{ term := 1, index := 2 },{ term := 1, index := 3 }] := by decide +kernel
  rw [hopen]
  exact (congrArg (·.entries) hrun).trans hentries

/-- Three bytes of the first frame arrive. The Sync that succeeds appends whole frames behind them, and
`Open` stops in front. -/
theorem sync_lost_behind_stub :
    let s' := ((openDir 0 {}).attempts 0 [.call (.appendEntries [{ term := 1, index := 1 }]),.syncFails 3]).sync 0
    s'.buf = [] ∧ s'.mirror.entries = [{ term := 1, index := 1 }] ∧ (openDir 0 s'.dir).mirror.entries = [] := by
  decide +kernel

/-- All of the buffer arrives, with an entry that overwrites an earlier one. Behind it the first entry leaves a gap,
and what was appended before the next Sync is lost. -/
example :
    let e : Nat → Nat → Entry := fun term index => { term, index }
    let s' := ((openDir 0 {}).attempts 0 [.call (.appendEntries [e 1 1,e 1 2,e 1 3]),.call .sync,
      .call (.appendEntries [e 1 4]),.call (.appendEntries [e 2 2]),.syncFails 1000,.call (.appendEntries [e 2 3])]).sync 0
    s'.buf = [] ∧ s'.mirror.entries = [e 1 1,e 2 2,e 2 3] ∧ (openDir 0 s'.dir).mirror.entries = [e 1 1,e 2 2] := by
  decide +kernel

end Parallax.Disk
