import Parallax.Sim.Matching

/-! The caches of the checker. Between calls the storages change and nodes come and go; what is cached about them is
either recognised as old or still true, and what has been folded of the commit records is all that they tell. So every
call finds what a checker without caches would find. -/
namespace Parallax.Sim
open Std (ExtTreeMap)

def Fact.index : Fact → Nat
  | .covered index | .term index _ | .digest index _ | .commitTerm index _ => index

theorem CommittedRec.index_of_mem {rec : CommittedRec} {f : Fact} (h : f ∈ rec.facts) : f.index = rec.index := by
  rcases h with rfl | ⟨_,rfl⟩ | ⟨_,rfl⟩ | ⟨_,rfl⟩ <;> rfl

/-- A mark holds what the facts tell of its index: the term, the digest, and the lowest term of a commitment. -/
structure Told (F : Set Fact) (idx : Nat) (m : LogMark) : Prop where
  term : ∀ t, (m.termKnown = true ∧ m.term = t) ↔ .term idx t ∈ F
  digest : ∀ d, (m.dataKnown = true ∧ m.digest = d) ↔ .digest idx d ∈ F
  least : m.commitTerm ≠ 0 → .commitTerm idx m.commitTerm ∈ F
  lower : ∀ c, .commitTerm idx c ∈ F → m.commitTerm ≠ 0 ∧ m.commitTerm ≤ c

structure Sums (F : Set Fact) (committed : ExtTreeMap Nat LogMark) : Prop where
  told : ∀ (idx : Nat) (m : LogMark), committed[idx]? = some m → .covered idx ∈ F ∧ Told F idx m
  unknown : ∀ idx : Nat, committed[idx]? = none → ∀ f ∈ F, f.index ≠ idx

/-- No two terms or digests for one index. -/
structure Consistent (F : Set Fact) : Prop where
  term : ∀ idx t t', .term idx t ∈ F → .term idx t' ∈ F → t = t'
  digest : ∀ idx d d', .digest idx d ∈ F → .digest idx d' ∈ F → d = d'

theorem Consistent.mono {F G : Set Fact} (h : Consistent G) (hsub : F ⊆ G) : Consistent F where
  term idx t t' ht ht' := h.term idx t t' (hsub ht) (hsub ht')
  digest idx d d' hd hd' := h.digest idx d d' (hsub hd) (hsub hd')

theorem Sums.consistent {F : Set Fact} {committed : ExtTreeMap Nat LogMark} (h : Sums F committed) : Consistent F where
  term idx t t' ht ht' := by
    cases hm : committed[idx]? with
    | none => exact absurd rfl (h.unknown idx hm _ ht)
    | some m =>
      have htold := (h.told idx m hm).2
      exact ((htold.term t).mpr ht).2.symm.trans ((htold.term t').mpr ht').2
  digest idx d d' hd hd' := by
    cases hm : committed[idx]? with
    | none => exact absurd rfl (h.unknown idx hm _ hd)
    | some m =>
      have htold := (h.told idx m hm).2
      exact ((htold.digest d).mpr hd).2.symm.trans ((htold.digest d').mpr hd').2

theorem sums_empty : Sums ∅ ∅ where
  told idx m h := by simp at h
  unknown idx _ f hf := absurd hf (Set.notMem_empty f)

section Record
variable {F : Set Fact} {idx : Nat} {m prev : LogMark} {rec : CommittedRec}

theorem Told.other (h : Told F idx m) (hne : idx ≠ rec.index) : Told (F ∪ rec.facts) idx m := by
  have hiff : ∀ f : Fact, f.index = idx → (f ∈ F ∪ rec.facts ↔ f ∈ F) := by
    intro f hf
    refine ⟨fun hmem => hmem.resolve_right fun hr => hne (hf.symm.trans (rec.index_of_mem hr)),.inl⟩
  exact ⟨fun t => (h.term t).trans (hiff _ rfl).symm,fun d => (h.digest d).trans (hiff _ rfl).symm,
    fun hc => .inl (h.least hc),fun c hc => h.lower c ((hiff _ rfl).mp hc)⟩

theorem mem_term {t : Nat} : .term rec.index t ∈ rec.facts ↔ rec.termKnown = true ∧ rec.term = t := by
  constructor
  · rintro (h | ⟨hk,h⟩ | ⟨_,h⟩ | ⟨_,h⟩)
    · cases h
    · cases h
      exact ⟨hk,rfl⟩
    · cases h
    · cases h
  · rintro ⟨hk,rfl⟩
    exact .inr (.inl ⟨hk,rfl⟩)

theorem mem_digest {d : UInt64} : .digest rec.index d ∈ rec.facts ↔ rec.dataKnown = true ∧ rec.digest = d := by
  constructor
  · rintro (h | ⟨_,h⟩ | ⟨hk,h⟩ | ⟨_,h⟩)
    · cases h
    · cases h
    · cases h
      exact ⟨hk,rfl⟩
    · cases h
  · rintro ⟨hk,rfl⟩
    exact .inr (.inr (.inl ⟨hk,rfl⟩))

theorem mem_commitTerm {c : Nat} : .commitTerm rec.index c ∈ rec.facts ↔ rec.commitTerm ≠ 0 ∧ rec.commitTerm = c := by
  constructor
  · rintro (h | ⟨_,h⟩ | ⟨_,h⟩ | ⟨hk,h⟩)
    · cases h
    · cases h
    · cases h
    · cases h
      exact ⟨hk,rfl⟩
  · rintro ⟨hk,rfl⟩
    exact .inr (.inr (.inr ⟨hk,rfl⟩))

section Enrich
open Invariants

private theorem learnTerm_eq (rec : CommittedRec) (p : LogMark × Bool) :
    learnTerm rec p = p ∨ (learnTerm rec p).2 = true := by
  unfold learnTerm
  split_ifs
  · exact .inr rfl
  · exact .inl rfl

private theorem learnDigest_eq (rec : CommittedRec) (p : LogMark × Bool) :
    learnDigest rec p = p ∨ (learnDigest rec p).2 = true := by
  unfold learnDigest
  split_ifs
  · exact .inr rfl
  · exact .inl rfl

private theorem learnCommitTerm_eq (rec : CommittedRec) (p : LogMark × Bool) :
    learnCommitTerm rec p = p ∨ (learnCommitTerm rec p).2 = true := by
  unfold learnCommitTerm
  split_ifs
  · exact .inr rfl
  · exact .inl rfl

theorem enrich_unchanged (h : (enrich prev rec).2 = false) : (enrich prev rec).1 = prev := by
  unfold enrich at *
  have hc := (learnCommitTerm_eq rec (learnDigest rec (learnTerm rec (prev,false)))).resolve_right (by simpa using h)
  rw [hc] at h ⊢
  have hd := (learnDigest_eq rec (learnTerm rec (prev,false))).resolve_right (by simpa using h)
  rw [hd] at h ⊢
  rw [(learnTerm_eq rec (prev,false)).resolve_right (by simpa using h)]

private theorem enrich_term : (enrich prev rec).1.termKnown = (prev.termKnown || rec.termKnown) ∧
    (enrich prev rec).1.term = if !prev.termKnown && rec.termKnown then rec.term else prev.term := by
  unfold enrich learnCommitTerm learnDigest learnTerm
  cases hp : prev.termKnown <;> cases hr : rec.termKnown <;> simp [hp] <;> split_ifs <;> simp [hp]

private theorem enrich_digest : (enrich prev rec).1.dataKnown = (prev.dataKnown || rec.dataKnown) ∧
    (enrich prev rec).1.digest = if !prev.dataKnown && rec.dataKnown then rec.digest else prev.digest := by
  have hlearn : (learnTerm rec (prev,false)).1.dataKnown = prev.dataKnown ∧
      (learnTerm rec (prev,false)).1.digest = prev.digest := by
    unfold learnTerm
    split_ifs <;> exact ⟨rfl,rfl⟩
  have hcommit : ∀ p : LogMark × Bool, (learnCommitTerm rec p).1.dataKnown = p.1.dataKnown ∧
      (learnCommitTerm rec p).1.digest = p.1.digest := by
    intro p
    unfold learnCommitTerm
    split_ifs <;> exact ⟨rfl,rfl⟩
  rw [enrich,(hcommit _).1,(hcommit _).2]
  unfold learnDigest
  rw [hlearn.1]
  cases hp : prev.dataKnown <;> cases hr : rec.dataKnown <;> simp [hp,hlearn]

private theorem enrich_commitTerm : (enrich prev rec).1.commitTerm =
    if prev.commitTerm = 0 ∨ (rec.commitTerm ≠ 0 ∧ rec.commitTerm < prev.commitTerm) then rec.commitTerm
    else prev.commitTerm := by
  have hlearn : (learnDigest rec (learnTerm rec (prev,false))).1.commitTerm = prev.commitTerm := by
    unfold learnDigest learnTerm
    split_ifs <;> rfl
  unfold enrich learnCommitTerm
  rw [hlearn]
  split_ifs
  · rfl
  · exact hlearn

theorem Told.enriched (h : Told F rec.index prev)
    (hno : ¬ ((prev.termKnown ∧ rec.termKnown ∧ prev.term ≠ rec.term) ∨
      (prev.dataKnown ∧ rec.dataKnown ∧ prev.digest ≠ rec.digest))) :
    Told (F ∪ rec.facts) rec.index (enrich prev rec).1 := by
  refine ⟨fun t => ?_,fun d => ?_,fun hc => ?_,fun c hc => ?_⟩
  · rw [Set.mem_union,← h.term,mem_term,enrich_term.1,enrich_term.2]
    cases hp : prev.termKnown <;> cases hr : rec.termKnown <;> simp_all
  · rw [Set.mem_union,← h.digest,mem_digest,enrich_digest.1,enrich_digest.2]
    cases hp : prev.dataKnown <;> cases hr : rec.dataKnown <;> simp_all
  · rw [enrich_commitTerm] at hc ⊢
    split_ifs at hc ⊢
    · exact .inr (mem_commitTerm.mpr ⟨hc,rfl⟩)
    · exact .inl (h.least hc)
  rw [enrich_commitTerm]
  rcases hc with hc | hc
  · obtain ⟨hne,hle⟩ := h.lower c hc
    split_ifs with hif
    · exact ⟨by omega,by omega⟩
    · exact ⟨hne,hle⟩
  obtain ⟨hne,rfl⟩ := mem_commitTerm.mp hc
  split_ifs with hif
  · exact ⟨hne,le_rfl⟩
  · exact ⟨by omega,by omega⟩

end Enrich
/-- The marks have become those of the facts `G`; the version tells whether that is a change, and the rest of the
checker is as before. -/
structure Joins (G : Set Fact) (iv iv' : Invariants) : Prop where
  sums : Sums G iv'.committed
  version : iv.committedVersion ≤ iv'.committedVersion
  same : iv'.committedVersion = iv.committedVersion → iv'.committed = iv.committed
  keys : ∀ idx : Nat, iv.committed[idx]? ≠ none → iv'.committed[idx]? ≠ none
  only : ∃ committed version, iv' = { iv with committed := committed, committedVersion := version }

theorem Joins.refl {iv : Invariants} (h : Sums F iv.committed) : Joins F iv iv :=
  ⟨h,le_rfl,fun _ => rfl,fun _ hidx => hidx,_,_,rfl⟩

theorem Joins.trans {F G : Set Fact} {iv iv₁ iv₂ : Invariants} (h : Joins F iv iv₁) (h' : Joins G iv₁ iv₂) :
    Joins G iv iv₂ where
  sums := h'.sums
  version := h.version.trans h'.version
  same heq := by
    have := h.version
    have := h'.version
    rw [h'.same (by omega),h.same (by omega)]
  keys idx hidx := h'.keys idx (h.keys idx hidx)
  only := by
    obtain ⟨_,_,h₁⟩ := h.only
    obtain ⟨_,_,h₂⟩ := h'.only
    exact ⟨_,_,by rw [h₂,h₁]⟩

theorem foldRecord_spec {iv : Invariants} (id : Nat) (rec : CommittedRec) (h : Sums F iv.committed) :
    match iv.foldRecord id rec with
    | .error _ => ¬ Consistent (F ∪ rec.facts)
    | .ok iv' => Joins (F ∪ rec.facts) iv iv' := by
  -- A mark put under the index of the record leaves what is told of the others.
  have hinsert : ∀ m : LogMark, Told (F ∪ rec.facts) rec.index m →
      Sums (F ∪ rec.facts) (iv.committed.insert rec.index m) := by
    intro m hm
    refine ⟨fun idx m' hm' => ?_,fun idx hnone f hf heq => ?_⟩
    · rw [ExtTreeMap.getElem?_insert] at hm'
      split at hm'
      · rename_i heq
        obtain rfl := Std.compare_eq_iff_eq.mp heq
        obtain rfl := Option.some.inj hm'
        exact ⟨.inr (.inl rfl),hm⟩
      rename_i hne
      obtain ⟨hcov,htold⟩ := h.told idx m' hm'
      exact ⟨.inl hcov,htold.other fun heq => hne (Std.compare_eq_iff_eq.mpr heq.symm)⟩
    rw [ExtTreeMap.getElem?_insert] at hnone
    split at hnone
    · cases hnone
    rename_i hne
    rcases hf with hf | hf
    · exact h.unknown idx hnone f hf heq
    · exact hne (Std.compare_eq_iff_eq.mpr ((rec.index_of_mem hf).symm.trans heq))
  have hkeys : ∀ (m : LogMark) (idx : Nat), iv.committed[idx]? ≠ none → (iv.committed.insert rec.index m)[idx]? ≠ none := by
    intro m idx hidx
    rw [ExtTreeMap.getElem?_insert]
    split
    · simp
    · exact hidx
  unfold Invariants.foldRecord
  cases hprev : iv.committed[rec.index]? with
  | none =>
    refine ⟨hinsert _ ?_,Nat.le_succ _,fun heq => absurd heq (Nat.succ_ne_self _),hkeys _,_,_,rfl⟩
    have hfresh : ∀ f ∈ F, f.index ≠ rec.index := h.unknown rec.index hprev
    refine ⟨fun t => ?_,fun d => ?_,fun hc => .inr (mem_commitTerm.mpr ⟨hc,rfl⟩),fun c hc => ?_⟩
    · rw [Set.mem_union,mem_term,or_iff_right fun hf => hfresh _ hf rfl]
    · rw [Set.mem_union,mem_digest,or_iff_right fun hf => hfresh _ hf rfl]
    · obtain ⟨hne,rfl⟩ := mem_commitTerm.mp (hc.resolve_left fun hf => hfresh _ hf rfl)
      exact ⟨hne,le_rfl⟩
  | some prev =>
    have htold := (h.told rec.index prev hprev).2
    dsimp only
    by_cases hconf : (prev.termKnown ∧ rec.termKnown ∧ prev.term ≠ rec.term) ∨
      (prev.dataKnown ∧ rec.dataKnown ∧ prev.digest ≠ rec.digest)
    · rw [if_pos hconf]
      intro hcons
      rcases hconf with ⟨hp,hr,hne⟩ | ⟨hp,hr,hne⟩
      · exact hne (hcons.term rec.index _ _ (.inl ((htold.term _).mp ⟨hp,rfl⟩)) (.inr (mem_term.mpr ⟨hr,rfl⟩)))
      · exact hne (hcons.digest rec.index _ _ (.inl ((htold.digest _).mp ⟨hp,rfl⟩)) (.inr (mem_digest.mpr ⟨hr,rfl⟩)))
    rw [if_neg hconf]
    have henriched := htold.enriched hconf
    by_cases hchanged : (Invariants.enrich prev rec).2
    · rw [if_pos hchanged]
      exact ⟨hinsert _ henriched,Nat.le_succ _,fun heq => absurd heq (Nat.succ_ne_self _),hkeys _,_,_,rfl⟩
    rw [if_neg hchanged]
    -- Nothing new: putting the same mark back is putting nothing.
    rw [enrich_unchanged (by simpa using hchanged)] at henriched
    have hsame : iv.committed.insert rec.index prev = iv.committed := by
      apply ExtTreeMap.ext_getElem?
      intro idx
      rw [ExtTreeMap.getElem?_insert]
      split
      · rename_i heq
        rw [← Std.compare_eq_iff_eq.mp heq,hprev]
      · rfl
    have := hinsert prev henriched
    rw [hsame] at this
    exact .refl this

theorem foldlM_foldRecord (id : Nat) (recs : List CommittedRec) {iv : Invariants} (h : Sums F iv.committed) :
    match recs.foldlM (Invariants.foldRecord id) iv with
    | .error _ => ¬ Consistent (F ∪ facts recs)
    | .ok iv' => Joins (F ∪ facts recs) iv iv' := by
  induction recs generalizing F iv with
  | nil =>
    rw [facts_nil,Set.union_empty]
    exact .refl h
  | cons rec recs ih =>
    rw [List.foldlM_cons,facts_cons,← Set.union_assoc]
    have hstep := foldRecord_spec id rec h
    cases hrec : iv.foldRecord id rec with
    | error err =>
      rw [hrec] at hstep
      exact fun hcons => hstep (hcons.mono Set.subset_union_left)
    | ok iv₁ =>
      rw [hrec] at hstep
      have hrest := ih hstep.sums
      change match recs.foldlM (Invariants.foldRecord id) iv₁ with | .error _ => _ | .ok _ => _
      cases hfold : recs.foldlM (Invariants.foldRecord id) iv₁ with
      | error err =>
        rw [hfold] at hrest
        exact hrest
      | ok iv' =>
        rw [hfold] at hrest
        exact hstep.trans hrest

end Record

section Peers
variable {σ : Type} {S : LogStorage σ} {nodes : Nat → Option (NodeState σ)} {iv iv' : Invariants} {F : Set Fact}

/-- All that the records of the peers tell. -/
def recordFacts (nodes : Nat → Option (NodeState σ)) (peers : List Nat) : Set Fact :=
  {f | ∃ id ∈ peers, ∃ ns, nodes id = some ns ∧ f ∈ facts ns.storage.committed}

/-- `F` has been folded: nothing that is not told, and of the records up to the cursors all that is not told again. -/
structure Folded (nodes : Nat → Option (NodeState σ)) (F : Set Fact) (iv : Invariants) : Prop where
  sums : Sums F iv.committed
  cursor : ∀ id ns, nodes id = some ns → iv.commitCursor.getD id 0 ≤ ns.storage.committed.length
  sound : F ⊆ recordFacts nodes iv.peers
  complete : ∀ id ∈ iv.peers, ∀ ns, nodes id = some ns →
    facts (ns.storage.committed.take (iv.commitCursor.getD id 0)) ⊆
      F ∪ facts (ns.storage.committed.drop (iv.commitCursor.getD id 0))

/-- Every record of the node is folded. -/
def Full (nodes : Nat → Option (NodeState σ)) (iv : Invariants) (id : Nat) : Prop :=
  ∀ ns, nodes id = some ns → iv.commitCursor.getD id 0 = ns.storage.committed.length

/-- Folding changes the marks, their version and the cursors only. -/
structure Refolds (iv iv' : Invariants) : Prop where
  version : iv.committedVersion ≤ iv'.committedVersion
  same : iv'.committedVersion = iv.committedVersion → iv'.committed = iv.committed
  keys : ∀ idx : Nat, iv.committed[idx]? ≠ none → iv'.committed[idx]? ≠ none
  only : ∃ committed version cursor,
    iv' = { iv with committed := committed, committedVersion := version, commitCursor := cursor }

theorem Refolds.refl (iv : Invariants) : Refolds iv iv := ⟨le_rfl,fun _ => rfl,fun _ hidx => hidx,_,_,_,rfl⟩

theorem Refolds.trans {iv iv₁ iv₂ : Invariants} (h : Refolds iv iv₁) (h' : Refolds iv₁ iv₂) : Refolds iv iv₂ where
  version := h.version.trans h'.version
  same heq := by
    have := h.version
    have := h'.version
    rw [h'.same (by omega),h.same (by omega)]
  keys idx hidx := h'.keys idx (h.keys idx hidx)
  only := by
    obtain ⟨_,_,_,h₁⟩ := h.only
    obtain ⟨_,_,_,h₂⟩ := h'.only
    exact ⟨_,_,_,by rw [h₂,h₁]⟩

theorem Refolds.peers (h : Refolds iv iv') : iv'.peers = iv.peers := by
  obtain ⟨_,_,_,rfl⟩ := h.only
  rfl

private theorem getD_cursor (cursor : ExtTreeMap Nat Nat) (id n id' : Nat) :
    (cursor.insert id n).getD id' 0 = if id = id' then n else cursor.getD id' 0 := by
  rw [ExtTreeMap.getD_insert]
  simp only [Std.compare_eq_iff_eq]

private theorem facts_take_drop (recs : List CommittedRec) (n : Nat) :
    facts recs = facts (recs.take n) ∪ facts (recs.drop n) := by
  rw [← facts_append,List.take_append_drop]

private theorem foldPeer_spec (h : Folded nodes F iv) {id : Nat} (hid : id ∈ iv.peers) :
    match iv.foldPeer nodes id with
    | .error _ => ¬ Consistent (recordFacts nodes iv.peers)
    | .ok iv' => (∃ G, Folded nodes G iv') ∧ Refolds iv iv' ∧ Full nodes iv' id ∧
        ∀ id', Full nodes iv id' → Full nodes iv' id' := by
  unfold Invariants.foldPeer
  cases hns : nodes id with
  | none => exact ⟨⟨F,h⟩,.refl iv,fun ns h => (nomatch hns.symm.trans h),fun _ hfull => hfull⟩
  | some ns =>
    dsimp only
    have hcur := h.cursor id ns hns
    have hunfolded : iv.unfolded id ns.storage.committed = ns.storage.committed.drop (iv.commitCursor.getD id 0) := by
      unfold Invariants.unfolded
      dsimp only
      rw [if_neg (by omega)]
    have hsub : F ∪ facts (ns.storage.committed.drop (iv.commitCursor.getD id 0)) ⊆ recordFacts nodes iv.peers := by
      refine Set.union_subset h.sound fun f hf => ⟨id,hid,ns,hns,?_⟩
      rw [facts_take_drop _ (iv.commitCursor.getD id 0)]
      exact .inr hf
    have hfold := foldlM_foldRecord id (ns.storage.committed.drop (iv.commitCursor.getD id 0)) h.sums
    rw [hunfolded]
    cases hrun : (ns.storage.committed.drop (iv.commitCursor.getD id 0)).foldlM (Invariants.foldRecord id) iv with
    | error err =>
      rw [hrun] at hfold
      exact fun hcons => hfold (hcons.mono hsub)
    | ok iv₁ =>
      rw [hrun] at hfold
      obtain ⟨committed,version,rfl⟩ := hfold.only
      refine ⟨⟨_,hfold.sums,?_,hsub,?_⟩,⟨hfold.version,hfold.same,hfold.keys,_,_,_,rfl⟩,?_,?_⟩
      · intro id' ns' hns'
        rw [getD_cursor]
        split_ifs with heq
        · obtain rfl := heq
          rw [Option.some.inj (hns.symm.trans hns')]
        · exact h.cursor id' ns' hns'
      · intro id' hid' ns' hns'
        rw [getD_cursor]
        split_ifs with heq
        · obtain rfl := heq
          obtain rfl := Option.some.inj (hns.symm.trans hns')
          rw [List.take_length,facts_take_drop _ (iv.commitCursor.getD id 0)]
          exact (Set.union_subset (h.complete id hid ns hns) Set.subset_union_right).trans Set.subset_union_left
        · exact (h.complete id' hid' ns' hns').trans (Set.union_subset_union_left _ Set.subset_union_left)
      · intro ns' hns'
        rw [getD_cursor,if_pos rfl,Option.some.inj (hns.symm.trans hns')]
      intro id' hfull ns' hns'
      rw [getD_cursor]
      split_ifs with heq
      · obtain rfl := heq
        rw [Option.some.inj (hns.symm.trans hns')]
      · exact hfull ns' hns'

theorem foldlM_foldPeer (ids : List Nat) (h : Folded nodes F iv) (hids : ∀ id ∈ ids, id ∈ iv.peers) :
    match ids.foldlM (Invariants.foldPeer nodes) iv with
    | .error _ => ¬ Consistent (recordFacts nodes iv.peers)
    | .ok iv' => (∃ G, Folded nodes G iv') ∧ Refolds iv iv' ∧ (∀ id ∈ ids, Full nodes iv' id) ∧
        ∀ id', Full nodes iv id' → Full nodes iv' id' := by
  induction ids generalizing F iv with
  | nil => exact ⟨⟨F,h⟩,.refl iv,by simp,fun _ hfull => hfull⟩
  | cons id ids ih =>
    rw [List.foldlM_cons]
    have hstep := foldPeer_spec h (hids id (by simp))
    cases hpeer : iv.foldPeer nodes id with
    | error err =>
      rw [hpeer] at hstep
      exact hstep
    | ok iv₁ =>
      rw [hpeer] at hstep
      obtain ⟨⟨G,hG⟩,hre,hfull,hkeep⟩ := hstep
      have hrest := ih hG fun id' hid' => hre.peers ▸ hids id' (by simp [hid'])
      rw [hre.peers] at hrest
      change match ids.foldlM (Invariants.foldPeer nodes) iv₁ with | .error _ => _ | .ok _ => _
      cases hfold : ids.foldlM (Invariants.foldPeer nodes) iv₁ with
      | error err =>
        rw [hfold] at hrest
        exact hrest
      | ok iv' =>
        rw [hfold] at hrest
        obtain ⟨hG',hre',hfull',hkeep'⟩ := hrest
        refine ⟨hG',hre.trans hre',?_,fun id' hid' => hkeep' id' (hkeep id' hid')⟩
        intro id' hid'
        rcases List.mem_cons.mp hid' with rfl | hid'
        · exact hkeep' _ hfull
        · exact hfull' id' hid'

theorem Folded.sums_all (h : Folded nodes F iv) (hfull : ∀ id ∈ iv.peers, Full nodes iv id) :
    Sums (recordFacts nodes iv.peers) iv.committed := by
  have hall : recordFacts nodes iv.peers ⊆ F := by
    rintro f ⟨id,hid,ns,hns,hf⟩
    have := h.complete id hid ns hns
    rw [hfull id hid ns hns,List.take_length,List.drop_length,facts_nil,Set.union_empty] at this
    exact this hf
  rw [Set.Subset.antisymm hall h.sound]
  exact h.sums

/-- The list of committed indices, from when there were as many as it counts. -/
structure Sorted (iv : Invariants) : Prop where
  nodup : iv.sortedCommitted.Nodup
  length : iv.sortedCommitted.length = iv.sortedCommittedLen
  sound : ∀ idx ∈ iv.sortedCommitted, idx ∈ iv.committed

private theorem sortCommitted_mem (h : Sorted iv) (idx : Nat) :
    idx ∈ iv.sortCommitted.sortedCommitted ↔ idx ∈ iv.committed := by
  unfold Invariants.sortCommitted
  split_ifs with hlen
  · exact ExtTreeMap.mem_keys
  refine ⟨h.sound idx,fun hidx => ?_⟩
  -- As many distinct indices as there are: all of them.
  have hsub : iv.sortedCommitted ⊆ iv.committed.keys := fun i hi => ExtTreeMap.mem_keys.mpr (h.sound i hi)
  have hle : iv.committed.keys.length ≤ iv.sortedCommitted.length := by
    rw [ExtTreeMap.length_keys,h.length]
    exact (not_not.mp hlen).le
  exact ((List.subperm_of_subset h.nodup hsub).perm_of_length_le hle).mem_iff.mpr (ExtTreeMap.mem_keys.mpr hidx)

theorem Sorted.sortCommitted (h : Sorted iv) : Sorted iv.sortCommitted := by
  unfold Invariants.sortCommitted
  split_ifs
  · exact ⟨ExtTreeMap.nodup_keys,ExtTreeMap.length_keys,fun idx hidx => ExtTreeMap.mem_keys.mp hidx⟩
  · exact h

/-- A leader of this term has all that is committed. -/
def Passes (S : LogStorage σ) (nodes : Nat → Option (NodeState σ)) (committed : ExtTreeMap Nat LogMark) (id term : Nat) :
    Prop := ∃ view, viewOf S nodes id = .ok view ∧ ∀ (idx : Nat) (m : LogMark), committed[idx]? = some m →
      Invariants.scanIndex id term view idx m = .ok ()

/-- A check remembered for a leader was of an earlier state, or still holds. -/
def Remembered (S : LogStorage σ) (nodes : Nat → Option (NodeState σ)) (iv : Invariants) : Prop :=
  ∀ (id : Nat) (key : LeaderCheck), iv.leaderCheckState[id]? = some key → ∃ ns, nodes id = some ns ∧
    key.generation ≤ ns.storage.generation ∧ key.committedVersion ≤ iv.committedVersion ∧
    (key.generation = ns.storage.generation → key.committedVersion = iv.committedVersion →
      Passes S nodes iv.committed id key.term)

def Failing (S : LogStorage σ) (nodes : Nat → Option (NodeState σ)) (committed : ExtTreeMap Nat LogMark) (id : Nat) : Prop :=
  ∃ ns term, nodes id = some ns ∧ Invariants.leading ns = some term ∧ ¬ Passes S nodes committed id term

private theorem forM_ok_iff {α ε : Type} {l : List α} {f : α → Except ε Unit} :
    l.forM f = .ok () ↔ ∀ a ∈ l, f a = .ok () := by
  induction l with
  | nil => exact ⟨fun _ => by simp,fun _ => rfl⟩
  | cons a l ih =>
    rw [List.forall_mem_cons,← ih]
    change (f a >>= fun _ => l.forM f) = .ok () ↔ _
    cases hfa : f a with
    | error e => exact ⟨fun h => (nomatch h),fun h => (nomatch h.1)⟩
    | ok u => exact ⟨fun h => ⟨rfl,h⟩,fun h => h.2⟩

/-- What the check of the leaders rests on; its own changes keep it. -/
structure Ready (S : LogStorage σ) (nodes : Nat → Option (NodeState σ)) (iv : Invariants) : Prop where
  cached : Cached S nodes iv.markCache
  indexes : ∀ idx : Nat, idx ∈ iv.sortedCommitted ↔ idx ∈ iv.committed
  remembered : Remembered S nodes iv

private theorem failing_iff {id term : Nat} {ns : NodeState σ} {committed : ExtTreeMap Nat LogMark}
    (hns : nodes id = some ns)
    (hlead : Invariants.leading ns = some term) :
    Failing S nodes committed id ↔ ¬ Passes S nodes committed id term := by
  constructor
  · rintro ⟨ns',term',hns',hlead',hno⟩
    rw [← Option.some.inj (hns.symm.trans hns'),hlead] at hlead'
    rwa [Option.some.inj hlead']
  · exact fun hno => ⟨ns,term,hns,hlead,hno⟩

theorem Ready.scan_iff (h : Ready S nodes iv) {id : Nat} (term : Nat) {view : DurableCache}
    (hv : viewOf S nodes id = .ok view) : iv.sortedCommitted.forM (fun index =>
      Invariants.scanIndex id term view index (iv.committed.getD index {})) = .ok () ↔
      Passes S nodes iv.committed id term := by
  rw [forM_ok_iff]
  constructor
  · intro hall
    refine ⟨view,hv,fun idx m hm => ?_⟩
    have hmem : idx ∈ iv.committed := ExtTreeMap.mem_iff_isSome_getElem?.mpr (by rw [hm]; rfl)
    have := hall idx ((h.indexes idx).mpr hmem)
    rwa [ExtTreeMap.getD_eq_getD_getElem?,hm,Option.getD_some] at this
  rintro ⟨view',hv',hall⟩ idx hidx
  obtain rfl := Except.ok.inj (hv.symm.trans hv')
  have hmem := (h.indexes idx).mp hidx
  obtain ⟨m,hm⟩ := Option.isSome_iff_exists.mp (ExtTreeMap.mem_iff_isSome_getElem?.mp hmem)
  rw [ExtTreeMap.getD_eq_getD_getElem?,hm,Option.getD_some]
  exact hall idx m hm

theorem Ready.remember (h : Ready S nodes iv) {id term : Nat} {ns : NodeState σ} (hns : nodes id = some ns)
    (hpass : Passes S nodes iv.committed id term) {cache : ExtTreeMap Nat DurableCache} (hc : Cached S nodes cache) :
    Ready S nodes { iv with
      markCache := cache
      leaderCheckState := iv.leaderCheckState.insert id
        { generation := ns.storage.generation, committedVersion := iv.committedVersion, term } } := by
  refine ⟨hc,h.indexes,fun id' key hkey => ?_⟩
  rw [ExtTreeMap.getElem?_insert] at hkey
  split at hkey
  · rename_i heq
    obtain rfl := Std.compare_eq_iff_eq.mp heq
    obtain rfl := Option.some.inj hkey
    exact ⟨ns,hns,le_rfl,le_rfl,fun _ _ => hpass⟩
  · exact h.remembered id' key hkey

private theorem checkLeader_spec (h : Ready S nodes iv) (id : Nat) :
    match iv.checkLeader S nodes id with
    | .error _ => Failing S nodes iv.committed id
    | .ok iv' => ¬ Failing S nodes iv.committed id ∧ Ready S nodes iv' ∧
        ∃ cache checks, iv' = { iv with markCache := cache, leaderCheckState := checks } := by
  unfold Invariants.checkLeader
  cases hns : nodes id with
  | none => exact ⟨fun ⟨_,_,hns',_⟩ => (nomatch hns.symm.trans hns'),h,_,_,rfl⟩
  | some ns =>
    dsimp only
    cases hlead : Invariants.leading ns with
    | none =>
      refine ⟨fun ⟨ns',term,hns',hlead',_⟩ => ?_,h,_,_,rfl⟩
      rw [← Option.some.inj (hns.symm.trans hns'),hlead] at hlead'
      cases hlead'
    | some term =>
      dsimp only
      have hfails : Failing S nodes iv.committed id ↔ _ := failing_iff hns hlead
      by_cases hskip : iv.leaderCheckState[id]? =
          some { generation := ns.storage.generation, committedVersion := iv.committedVersion, term }
      · rw [if_pos hskip]
        obtain ⟨ns',hns',_,_,hpass⟩ := h.remembered id _ hskip
        obtain rfl := Option.some.inj (hns.symm.trans hns')
        exact ⟨fun hf => hfails.mp hf (hpass rfl rfl),h,_,_,rfl⟩
      rw [if_neg hskip]
      cases hview : iv.durableMarks S (some ns) id with
      | error err =>
        rw [← hns] at hview
        refine hfails.mpr ?_
        rintro ⟨view,hv,_⟩
        rw [durableMarks_error hview] at hv
        cases hv
      | ok r =>
        obtain ⟨view,iv₁⟩ := r
        rw [← hns] at hview
        obtain ⟨hv,cache,rfl,hcached⟩ := durableMarks_ok h.cached hview
        have hscan := h.scan_iff term hv
        change match (iv.sortedCommitted.forM (fun index =>
            Invariants.scanIndex id term view index (iv.committed.getD index {})) >>= fun _ =>
              (pure _ : Except CheckErr Invariants)) with | .error _ => _ | .ok _ => _
        cases hrun : iv.sortedCommitted.forM (fun index =>
            Invariants.scanIndex id term view index (iv.committed.getD index {})) with
        | error err =>
          refine hfails.mpr fun hpass => ?_
          rw [hscan.mpr hpass] at hrun
          cases hrun
        | ok u =>
          have hpass := hscan.mp hrun
          exact ⟨fun hf => hfails.mp hf hpass,h.remember hns hpass hcached,_,_,rfl⟩

private theorem foldlM_checkLeader (ids : List Nat) (h : Ready S nodes iv) :
    match ids.foldlM (Invariants.checkLeader S nodes) iv with
    | .error _ => ∃ id ∈ ids, Failing S nodes iv.committed id
    | .ok iv' => (∀ id ∈ ids, ¬ Failing S nodes iv.committed id) ∧ Ready S nodes iv' ∧
        ∃ cache checks, iv' = { iv with markCache := cache, leaderCheckState := checks } := by
  induction ids generalizing iv with
  | nil => exact ⟨by simp,h,_,_,rfl⟩
  | cons id ids ih =>
    rw [List.foldlM_cons]
    have hstep := checkLeader_spec h id
    cases hcheck : iv.checkLeader S nodes id with
    | error err =>
      rw [hcheck] at hstep
      exact ⟨id,by simp,hstep⟩
    | ok iv₁ =>
      rw [hcheck] at hstep
      obtain ⟨hno,hready,_,_,rfl⟩ := hstep
      have hrest := ih hready
      change match ids.foldlM (Invariants.checkLeader S nodes) _ with | .error _ => _ | .ok _ => _
      cases hfold : ids.foldlM (Invariants.checkLeader S nodes) _ with
      | error err =>
        rw [hfold] at hrest
        obtain ⟨id',hid',hf⟩ := hrest
        exact ⟨id',by simp [hid'],hf⟩
      | ok iv' =>
        rw [hfold] at hrest
        obtain ⟨hno',hready',_,_,rfl⟩ := hrest
        refine ⟨?_,hready',_,_,rfl⟩
        intro id' hid'
        rcases List.mem_cons.mp hid' with rfl | hid'
        · exact hno
        · exact hno' id' hid'

theorem Told.commitTerm_eq {idx : Nat} {m m' : LogMark} (h : Told F idx m) (h' : Told F idx m') :
    m.commitTerm = m'.commitTerm := by
  by_cases hm : m.commitTerm = 0
  · by_contra hne
    exact (h.lower _ (h'.least fun h0 => hne (hm.trans h0.symm))).1 hm
  · have hle := h'.lower _ (h.least hm)
    exact Nat.le_antisymm (h.lower _ (h'.least hle.1)).2 hle.2

theorem Told.term_iff {idx : Nat} {m m' : LogMark} (h : Told F idx m) (h' : Told F idx m') (t : Nat) :
    (m.termKnown = true ∧ t ≠ m.term) ↔ (m'.termKnown = true ∧ t ≠ m'.term) := by
  constructor
  · rintro ⟨hk,hne⟩
    obtain ⟨hk',heq⟩ := (h'.term m.term).mpr ((h.term m.term).mp ⟨hk,rfl⟩)
    exact ⟨hk',heq ▸ hne⟩
  rintro ⟨hk,hne⟩
  obtain ⟨hk',heq⟩ := (h.term m'.term).mpr ((h'.term m'.term).mp ⟨hk,rfl⟩)
  exact ⟨hk',heq ▸ hne⟩

theorem Told.digest_iff {idx : Nat} {m m' : LogMark} (h : Told F idx m) (h' : Told F idx m') (d : UInt64) :
    (m.dataKnown = true ∧ d ≠ m.digest) ↔ (m'.dataKnown = true ∧ d ≠ m'.digest) := by
  constructor
  · rintro ⟨hk,hne⟩
    obtain ⟨hk',heq⟩ := (h'.digest m.digest).mpr ((h.digest m.digest).mp ⟨hk,rfl⟩)
    exact ⟨hk',heq ▸ hne⟩
  rintro ⟨hk,hne⟩
  obtain ⟨hk',heq⟩ := (h.digest m'.digest).mpr ((h'.digest m'.digest).mp ⟨hk,rfl⟩)
  exact ⟨hk',heq ▸ hne⟩

theorem scanIndex_congr {idx : Nat} {m m' : LogMark} (h : Told F idx m) (h' : Told F idx m') {id term : Nat}
    {view : DurableCache} (hok : Invariants.scanIndex id term view idx m = .ok ()) :
    Invariants.scanIndex id term view idx m' = .ok () := by
  unfold Invariants.scanIndex at hok ⊢
  rw [h.commitTerm_eq h'] at hok
  by_cases hlate : m'.commitTerm ≠ 0 ∧ m'.commitTerm > term
  · rw [if_pos hlate]
  rw [if_neg hlate] at hok ⊢
  cases hget : view.marks[idx]? with
  | some got =>
    simp only [hget,h.term_iff h',h.digest_iff h'] at hok ⊢
    split_ifs at hok ⊢
    rfl
  | none =>
    simp only [hget,h.term_iff h'] at hok ⊢
    split_ifs at hok ⊢
    · rfl

theorem Passes.congr {committed committed' : ExtTreeMap Nat LogMark} (h : Sums F committed) (h' : Sums F committed')
    {id term : Nat} (hp : Passes S nodes committed id term) : Passes S nodes committed' id term := by
  obtain ⟨view,hview,hall⟩ := hp
  refine ⟨view,hview,fun idx m' hm' => ?_⟩
  obtain ⟨hcov,htold'⟩ := h'.told idx m' hm'
  cases hm : committed[idx]? with
  | none => exact absurd rfl (h.unknown idx hm _ hcov)
  | some m => exact scanIndex_congr (h.told idx m hm).2 htold' (hall idx m hm)

/-- The records contradict each other, or a leader lacks something committed. -/
def Incomplete (S : LogStorage σ) (nodes : Nat → Option (NodeState σ)) (peers : List Nat) : Prop :=
  ∀ committed, Sums (recordFacts nodes peers) committed → ∃ id ∈ peers, Failing S nodes committed id

/-- All the caches agree with the nodes. -/
structure Coherent (S : LogStorage σ) (nodes : Nat → Option (NodeState σ)) (iv : Invariants) : Prop where
  cached : Cached S nodes iv.markCache
  folded : ∃ F, Folded nodes F iv
  sorted : Sorted iv
  remembered : Remembered S nodes iv

theorem coherent_new (peers : List Nat) : Coherent S nodes { peers } where
  cached := cached_empty
  folded := ⟨∅,sums_empty,fun _ _ _ => by simp [ExtTreeMap.getD_empty],Set.empty_subset _,
    fun _ _ _ _ => by simp [ExtTreeMap.getD_empty]⟩
  sorted := ⟨.nil,rfl,by simp⟩
  remembered id key h := by simp at h

private theorem mem_iff_ne_none {cache : ExtTreeMap Nat LogMark} {idx : Nat} : idx ∈ cache ↔ cache[idx]? ≠ none := by
  rw [ExtTreeMap.mem_iff_isSome_getElem?,Option.isSome_iff_ne_none]

theorem Refolds.sorted (hre : Refolds iv iv') (h : Sorted iv) : Sorted iv' := by
  have hkeys := hre.keys
  obtain ⟨_,_,_,rfl⟩ := hre.only
  exact ⟨h.nodup,h.length,fun idx hidx => mem_iff_ne_none.mpr (hkeys idx (mem_iff_ne_none.mp (h.sound idx hidx)))⟩

theorem Refolds.remembered (hre : Refolds iv iv') (h : Remembered S nodes iv) : Remembered S nodes iv' := by
  intro id key hkey
  have hchecks : iv'.leaderCheckState = iv.leaderCheckState := by
    obtain ⟨_,_,_,rfl⟩ := hre.only
    rfl
  rw [hchecks] at hkey
  obtain ⟨ns,hns,hgen,hver,hpass⟩ := h id key hkey
  have := hre.version
  refine ⟨ns,hns,hgen,by omega,fun hg hv => ?_⟩
  rw [hre.same (by omega)]
  exact hpass hg (by omega)

theorem Refolds.markCache (hre : Refolds iv iv') : iv'.markCache = iv.markCache := by
  obtain ⟨_,_,_,rfl⟩ := hre.only
  rfl

private theorem sortCommitted_only (iv : Invariants) :
    ∃ sorted len, iv.sortCommitted = { iv with sortedCommitted := sorted, sortedCommittedLen := len } := by
  unfold Invariants.sortCommitted
  split_ifs <;> exact ⟨_,_,rfl⟩

theorem checkLeaderCompleteness_spec (h : Coherent S nodes iv) :
    match iv.checkLeaderCompleteness S nodes with
    | .error _ => Incomplete S nodes iv.peers
    | .ok iv' => ¬ Incomplete S nodes iv.peers ∧ Coherent S nodes iv' ∧ iv'.peers = iv.peers := by
  obtain ⟨F,hF⟩ := h.folded
  have hfold := foldlM_foldPeer iv.peers hF fun _ hid => hid
  unfold Invariants.checkLeaderCompleteness
  cases hrun : iv.peers.foldlM (Invariants.foldPeer nodes) iv with
  | error err =>
    rw [hrun] at hfold
    exact fun committed hsums => absurd hsums.consistent hfold
  | ok iv₁ =>
    rw [hrun] at hfold
    obtain ⟨⟨G,hG⟩,hre,hfull,_⟩ := hfold
    have hpeers := hre.peers
    have hsums := hG.sums_all (hpeers ▸ hfull)
    rw [hpeers] at hsums
    have hsorted := hre.sorted h.sorted
    have hindexes := sortCommitted_mem hsorted
    have hsorted' := hsorted.sortCommitted
    obtain ⟨sorted,len,heq⟩ := sortCommitted_only iv₁
    change match iv₁.peers.foldlM (Invariants.checkLeader S nodes) iv₁.sortCommitted with | .error _ => _ | .ok _ => _
    rw [heq] at hindexes hsorted' ⊢
    have hready : Ready S nodes { iv₁ with sortedCommitted := sorted, sortedCommittedLen := len } :=
      ⟨hre.markCache ▸ h.cached,hindexes,hre.remembered h.remembered⟩
    have hcheck := foldlM_checkLeader iv₁.peers hready
    cases hrun' : iv₁.peers.foldlM (Invariants.checkLeader S nodes)
        { iv₁ with sortedCommitted := sorted, sortedCommittedLen := len } with
    | error err =>
      rw [hrun'] at hcheck
      obtain ⟨id,hid,ns,term,hns,hlead,hno⟩ := hcheck
      exact fun committed hc => ⟨id,hpeers ▸ hid,ns,term,hns,hlead,fun hp => hno (hp.congr hc hsums)⟩
    | ok iv' =>
      rw [hrun'] at hcheck
      obtain ⟨hno,hready,cache,checks,rfl⟩ := hcheck
      refine ⟨fun hinc => ?_,⟨hready.cached,⟨G,hG.sums,hG.cursor,hG.sound,hG.complete⟩,
        ⟨hsorted'.nodup,hsorted'.length,hsorted'.sound⟩,hready.remembered⟩,hpeers⟩
      obtain ⟨id,hid,hf⟩ := hinc _ hsums
      exact hno id (hpeers ▸ hid) hf

/-- The nodes after a change to their storages or to what runs on them. -/
def NodesGrow (nodes nodes' : Nat → Option (NodeState σ)) : Prop :=
  ∀ id, (nodes id = none ∧ nodes' id = none) ∨
    ∃ ns ns', nodes id = some ns ∧ nodes' id = some ns' ∧ Grows ns.storage ns'.storage

variable {nodes' : Nat → Option (NodeState σ)}

theorem NodesGrow.after {id : Nat} {ns : NodeState σ} (h : NodesGrow nodes nodes') (hns : nodes id = some ns) :
    ∃ ns', nodes' id = some ns' ∧ Grows ns.storage ns'.storage := by
  rcases h id with ⟨hnone,_⟩ | ⟨ns₁,ns',hns₁,hns',hgrows⟩
  · rw [hns] at hnone
    cases hnone
  · obtain rfl := Option.some.inj (hns.symm.trans hns₁)
    exact ⟨ns',hns',hgrows⟩

theorem NodesGrow.before {id : Nat} {ns' : NodeState σ} (h : NodesGrow nodes nodes') (hns' : nodes' id = some ns') :
    ∃ ns, nodes id = some ns ∧ Grows ns.storage ns'.storage := by
  rcases h id with ⟨_,hnone⟩ | ⟨ns,ns₁,hns,hns₁,hgrows⟩
  · rw [hns'] at hnone
    cases hnone
  · obtain rfl := Option.some.inj (hns'.symm.trans hns₁)
    exact ⟨ns,hns,hgrows⟩

/-- Within a generation the view stays. -/
theorem viewOf_same {id : Nat} {ns ns' : NodeState σ} (hns : nodes id = some ns) (hns' : nodes' id = some ns')
    (hg : Grows ns.storage ns'.storage) (hgen : ns'.storage.generation = ns.storage.generation) :
    viewOf S nodes' id = viewOf S nodes id := by
  unfold viewOf
  rw [hns,hns']
  dsimp only
  rw [hgen,hg.same hgen]

theorem Cached.grow {cache : ExtTreeMap Nat DurableCache} (h : Cached S nodes cache) (hg : NodesGrow nodes nodes') :
    Cached S nodes' cache := by
  intro id view hview
  obtain ⟨ns,hns,hgen,hok⟩ := h id view hview
  obtain ⟨ns',hns',hgrows⟩ := hg.after hns
  have := hgrows.generation
  refine ⟨ns',hns',by omega,fun heq => ?_⟩
  rw [viewOf_same hns hns' hgrows (by omega)]
  exact hok (by omega)

theorem Remembered.grow (h : Remembered S nodes iv) (hg : NodesGrow nodes nodes') : Remembered S nodes' iv := by
  intro id key hkey
  obtain ⟨ns,hns,hgen,hver,hpass⟩ := h id key hkey
  obtain ⟨ns',hns',hgrows⟩ := hg.after hns
  have := hgrows.generation
  refine ⟨ns',hns',by omega,hver,fun heq hv => ?_⟩
  obtain ⟨view,hview,hall⟩ := hpass (by omega) hv
  refine ⟨view,?_,hall⟩
  rw [viewOf_same hns hns' hgrows (by omega)]
  exact hview

private theorem facts_map_subset {recs : List CommittedRec} {enrich : CommittedRec → CommittedRec}
    (h : ∀ r ∈ recs, r.facts ⊆ (enrich r).facts) : facts recs ⊆ facts (recs.map enrich) := by
  rintro f ⟨r,hr,hf⟩
  exact ⟨enrich r,List.mem_map_of_mem hr,h r hr hf⟩

theorem Grows.facts_subset {t t' : TrackedStorage σ} (h : Grows t t') : facts t.committed ⊆ facts t'.committed := by
  obtain ⟨enrich,extra,hrec,hfacts⟩ := h.records
  rw [hrec,facts_append]
  exact (facts_map_subset fun r hr => (hfacts r hr).1).trans Set.subset_union_left

theorem Folded.grow (h : Folded nodes F iv) (hg : NodesGrow nodes nodes') : Folded nodes' F iv where
  sums := h.sums
  cursor id ns' hns' := by
    obtain ⟨ns,hns,hgrows⟩ := hg.before hns'
    obtain ⟨enrich,extra,hrec,_⟩ := hgrows.records
    have := h.cursor id ns hns
    rw [hrec,List.length_append,List.length_map]
    omega
  sound f hf := by
    obtain ⟨id,hid,ns,hns,hf⟩ := h.sound hf
    obtain ⟨ns',hns',hgrows⟩ := hg.after hns
    exact ⟨id,hid,ns',hns',hgrows.facts_subset hf⟩
  complete id hid ns' hns' := by
    obtain ⟨ns,hns,hgrows⟩ := hg.before hns'
    obtain ⟨enrich,extra,hrec,hfacts⟩ := hgrows.records
    have hcur := h.cursor id ns hns
    have hold := h.complete id hid ns hns
    rw [hrec,List.take_append_of_le_length (by rwa [List.length_map]),List.drop_append_of_le_length
      (by rwa [List.length_map]),← List.map_take,← List.map_drop,facts_append]
    rintro f ⟨_,hmap,hf⟩
    obtain ⟨r,hr,rfl⟩ := List.mem_map.mp hmap
    rcases (hfacts r (List.mem_of_mem_take hr)).2 hf with hf | hf
    · rcases hold ⟨r,hr,hf⟩ with hf | hf
      · exact .inl hf
      · exact .inr (.inl (facts_map_subset (fun r hr => (hfacts r (List.mem_of_mem_drop hr)).1) hf))
    · exact .inr (.inr hf)

theorem Coherent.grow (h : Coherent S nodes iv) (hg : NodesGrow nodes nodes') : Coherent S nodes' iv where
  cached := h.cached.grow hg
  folded := by
    obtain ⟨F,hF⟩ := h.folded
    exact ⟨F,hF.grow hg⟩
  sorted := h.sorted
  remembered := h.remembered.grow hg

end Peers

/-- The nodes and the checker. -/
structure World (σ : Type) where
  nodes : Nat → Option (NodeState σ)
  iv : Invariants

inductive Event
  | appendEntries (id : Nat) (entries : List Entry)
  | applySnapshot (id : Nat) (snapshot : Snapshot)
  | setHardState (id : Nat) (hs : HardState)
  /-- The node changes its role or term, crashes or comes back. -/
  | turn (id : Nat) (node : Option RaftNode) (crashed : Bool)
  | checkLogMatching (it : Iteration)
  | checkLeaderCompleteness

namespace World
variable {σ : Type} (S : LogStorage σ)

def onNode (w : World σ) (id : Nat) (f : NodeState σ → NodeState σ) : World σ :=
  { w with nodes := fun id' => if id' = id then (w.nodes id).map f else w.nodes id' }

def onStorage (w : World σ) (id : Nat) (f : TrackedStorage σ → TrackedStorage σ × Option TrackErr) : World σ :=
  w.onNode id fun ns => { ns with storage := (f ns.storage).1 }

/-- The run ends with the first violation. -/
def step (w : World σ) : Event → Except CheckErr (World σ)
  | .appendEntries id entries => .ok (w.onStorage id (·.appendEntries S entries))
  | .applySnapshot id snapshot => .ok (w.onStorage id (·.applySnapshot S snapshot))
  | .setHardState id hs => .ok (w.onStorage id (·.setHardState S hs))
  | .turn id node crashed => .ok (w.onNode id fun ns => { ns with node, crashed })
  | .checkLogMatching it => (w.iv.checkLogMatching S w.nodes it).map fun iv => { w with iv }
  | .checkLeaderCompleteness => (w.iv.checkLeaderCompleteness S w.nodes).map fun iv => { w with iv }

variable {S} {w w' : World σ}

private theorem onNode_grow {id : Nat} {f : NodeState σ → NodeState σ} (h : ∀ ns, Grows ns.storage (f ns).storage) :
    NodesGrow w.nodes (w.onNode id f).nodes := by
  intro id'
  unfold onNode
  dsimp only
  split_ifs with heq
  · obtain rfl := heq
    cases hns : w.nodes id' with
    | none => exact .inl ⟨rfl,rfl⟩
    | some ns => exact .inr ⟨ns,f ns,rfl,rfl,h ns⟩
  cases hns : w.nodes id' with
  | none => exact .inl ⟨rfl,rfl⟩
  | some ns => exact .inr ⟨ns,ns,rfl,rfl,.refl _⟩

private theorem step_coherent (h : Coherent S w.nodes w.iv) {e : Event} (hs : w.step S e = .ok w') :
    Coherent S w'.nodes w'.iv ∧ w'.iv.peers = w.iv.peers := by
  cases e with
  | appendEntries id entries =>
    obtain rfl := Except.ok.inj hs
    exact ⟨h.grow (onNode_grow fun _ => .appendEntries entries),rfl⟩
  | applySnapshot id snapshot =>
    obtain rfl := Except.ok.inj hs
    exact ⟨h.grow (onNode_grow fun _ => .applySnapshot snapshot),rfl⟩
  | setHardState id hs' =>
    obtain rfl := Except.ok.inj hs
    exact ⟨h.grow (onNode_grow fun _ => .setHardState hs'),rfl⟩
  | turn id node crashed =>
    obtain rfl := Except.ok.inj hs
    exact ⟨h.grow (onNode_grow fun _ => .refl _),rfl⟩
  | checkLogMatching it =>
    obtain ⟨iv,hiv,rfl⟩ := map_eq_ok hs
    obtain ⟨cache,rfl,hcached⟩ := checkLogMatching_ok h.cached hiv
    obtain ⟨F,hF⟩ := h.folded
    exact ⟨⟨hcached,⟨F,hF.sums,hF.cursor,hF.sound,hF.complete⟩,⟨h.sorted.nodup,h.sorted.length,h.sorted.sound⟩,
      h.remembered⟩,rfl⟩
  | checkLeaderCompleteness =>
    obtain ⟨iv,hiv,rfl⟩ := map_eq_ok hs
    have := checkLeaderCompleteness_spec h
    rw [hiv] at this
    exact this.2

private theorem run_coherent {events : List Event} (h : Coherent S w.nodes w.iv) (hrun : events.foldlM (step S) w = .ok w') :
    Coherent S w'.nodes w'.iv ∧ w'.iv.peers = w.iv.peers := by
  induction events generalizing w with
  | nil =>
    obtain rfl := Except.ok.inj hrun
    exact ⟨h,rfl⟩
  | cons e events ih =>
    rw [List.foldlM_cons] at hrun
    obtain ⟨w₁,hw₁,hrun⟩ := bind_eq_ok hrun
    obtain ⟨h₁,hpeers⟩ := step_coherent h hw₁
    obtain ⟨h',hpeers'⟩ := ih h₁ hrun
    exact ⟨h',hpeers'.trans hpeers⟩

end World

private theorem checkLeaderCompleteness_error_iff {σ : Type} {S : LogStorage σ} {nodes : Nat → Option (NodeState σ)}
    {iv : Invariants} (h : Coherent S nodes iv) :
    (∃ err, iv.checkLeaderCompleteness S nodes = .error err) ↔ Incomplete S nodes iv.peers := by
  have hspec := checkLeaderCompleteness_spec h
  cases hrun : iv.checkLeaderCompleteness S nodes with
  | error err =>
    rw [hrun] at hspec
    exact ⟨fun _ => hspec,fun _ => ⟨err,rfl⟩⟩
  | ok iv' =>
    rw [hrun] at hspec
    exact ⟨fun ⟨_,he⟩ => (nomatch he),fun hinc => absurd hinc hspec.1⟩

/-- From any nodes and a new checker on, after any calls of the storages, turns of the nodes and checks without a
violation: either check fails just if that of a new checker does. -/
theorem cached_checks_exact {σ : Type} (S : LogStorage σ) (nodes : Nat → Option (NodeState σ)) (peers : List Nat)
    (events : List Event) (w : World σ) (hrun : events.foldlM (World.step S) ⟨nodes,{ peers }⟩ = .ok w) :
    (∀ it it' : Iteration, (∃ err, w.iv.checkLogMatching S w.nodes it = .error err) ↔
      ∃ err, ({ peers } : Invariants).checkLogMatching S w.nodes it' = .error err) ∧
    ((∃ err, w.iv.checkLeaderCompleteness S w.nodes = .error err) ↔
      ∃ err, ({ peers } : Invariants).checkLeaderCompleteness S w.nodes = .error err) := by
  obtain ⟨h,hpeers⟩ := World.run_coherent (coherent_new peers) hrun
  refine ⟨fun it it' => ?_,?_⟩
  · rw [checkLogMatching_error_iff h.cached,checkLogMatching_error_iff cached_empty,hpeers]
  · rw [checkLeaderCompleteness_error_iff h,checkLeaderCompleteness_error_iff (coherent_new peers),hpeers]

/-- Both nodes hold three entries, node 1 has committed them and node 2 leads. After the first checks node 2 rewrites the
entry in the middle. -/
def rewritten : List Event :=
  let log : List Entry := [{ index := 1, term := 1, data := [1] },{ index := 2, term := 1, data := [2] },
    { index := 3, term := 1, data := [3] }]
  [.appendEntries 1 log,.setHardState 1 { term := 1, commit := 3 },.appendEntries 2 log,
    .turn 2 (some { state := .leader, term := 2 }) false,.checkLogMatching .ascending,.checkLeaderCompleteness,
    .appendEntries 2 [{ index := 2, term := 9, data := [9] },{ index := 3, term := 1, data := [3] }]]

theorem cached_checks_exact_rewritten :
    ∃ w, rewritten.foldlM (World.step mem) ⟨fun _ => some { storage := { storage := {} } },{ peers := [1,2] }⟩ = .ok w ∧
      ∃ err, w.iv.checkLeaderCompleteness mem w.nodes = .error err := by
  let w₀ : World Storage := ⟨fun _ => some { storage := { storage := {} } },{ peers := [1,2] }⟩
  have hfresh : (rewritten.foldlM (World.step mem) w₀).toOption.any (fun w =>
      !(({ peers := [1,2] } : Invariants).checkLeaderCompleteness mem w.nodes).isOk) = true := by decide +kernel
  cases hrun : rewritten.foldlM (World.step mem) w₀ with
  | error err =>
    rw [hrun] at hfresh
    cases hfresh
  | ok w =>
    rw [hrun] at hfresh
    refine ⟨w,rfl,(cached_checks_exact mem w₀.nodes [1,2] rewritten w hrun).2.mpr ?_⟩
    change (!(({ peers := [1,2] } : Invariants).checkLeaderCompleteness mem w.nodes).isOk) = true at hfresh
    cases hcheck : ({ peers := [1,2] } : Invariants).checkLeaderCompleteness mem w.nodes with
    | error err => exact ⟨err,rfl⟩
    | ok iv =>
      rw [hcheck] at hfresh
      cases hfresh

end Parallax.Sim
