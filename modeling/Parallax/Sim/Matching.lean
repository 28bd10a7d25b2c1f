import Parallax.Sim.Invariants

/-! The log-matching check. One running mark for each index stands for all the nodes before: the verdict is the same
whatever is cached and however maps are iterated, but a conflict below a higher term is not seen. -/
namespace Parallax.Sim
open Std (ExtTreeMap)

theorem bind_eq_ok {ε α β : Type} {x : Except ε α} {f : α → Except ε β} {b : β} (h : x >>= f = .ok b) :
    ∃ a, x = .ok a ∧ f a = .ok b := by
  cases x with
  | error e => cases h
  | ok a => exact ⟨a,rfl,h⟩

theorem map_eq_ok {ε α β : Type} {x : Except ε α} {f : α → β} {b : β} (h : x.map f = .ok b) :
    ∃ a, x = .ok a ∧ f a = b := by
  cases x with
  | error e => cases h
  | ok a => exact ⟨a,rfl,Except.ok.inj h⟩

section Views
variable {σ : Type} (S : LogStorage σ) (nodes : Nat → Option (NodeState σ))

/-- The durable log and snapshot of a node. -/
def viewOf (id : Nat) : Except CheckErr DurableCache :=
  match nodes id with
  | none => .ok {}
  | some ns => readView S id ns.storage.generation ns.storage.storage

/-- A cached view is of an earlier generation, or it is the node's. -/
def Cached (cache : ExtTreeMap Nat DurableCache) : Prop :=
  ∀ id view, cache[id]? = some view → ∃ ns, nodes id = some ns ∧ view.generation ≤ ns.storage.generation ∧
    (view.generation = ns.storage.generation → viewOf S nodes id = .ok view)

private theorem readView_generation {id generation : Nat} {s : σ} {view : DurableCache}
    (h : readView S id generation s = .ok view) : view.generation = generation := by
  obtain ⟨_,_,h⟩ := bind_eq_ok h
  obtain ⟨_,_,h⟩ := bind_eq_ok h
  obtain ⟨_,_,h⟩ := bind_eq_ok h
  obtain ⟨_,_,h⟩ := bind_eq_ok h
  obtain rfl := Except.ok.inj h
  rfl

variable {S nodes} {iv : Invariants}

theorem cached_empty : Cached S nodes ∅ := by
  intro id view h
  simp at h

theorem Cached.insert {cache : ExtTreeMap Nat DurableCache} (hc : Cached S nodes cache) {id : Nat} {ns : NodeState σ}
    {view : DurableCache} (hns : nodes id = some ns) (hview : viewOf S nodes id = .ok view) :
    Cached S nodes (cache.insert id view) := by
  intro id' view' h
  rw [ExtTreeMap.getElem?_insert] at h
  split at h
  · rename_i heq
    obtain rfl := Std.compare_eq_iff_eq.mp heq
    obtain rfl := Option.some.inj h
    refine ⟨ns,hns,?_,fun _ => hview⟩
    rw [viewOf,hns] at hview
    exact (readView_generation S hview).le
  · exact hc id' view' h

/-- With or without the cache, the view is the node's. -/
theorem durableMarks_ok (hc : Cached S nodes iv.markCache) {id : Nat} {view : DurableCache} {iv' : Invariants}
    (h : iv.durableMarks S (nodes id) id = .ok (view,iv')) :
    viewOf S nodes id = .ok view ∧ ∃ cache, iv' = { iv with markCache := cache } ∧ Cached S nodes cache := by
  unfold Invariants.durableMarks at h
  cases hns : nodes id with
  | none =>
    rw [hns] at h
    cases h
    rw [viewOf,hns]
    exact ⟨rfl,_,rfl,hc⟩
  | some ns =>
    have hview : viewOf S nodes id = readView S id ns.storage.generation ns.storage.storage := by rw [viewOf,hns]
    have hread : ((readView S id ns.storage.generation ns.storage.storage).map fun view =>
        (view,{ iv with markCache := iv.markCache.insert id view })) = .ok (view,iv') →
        viewOf S nodes id = .ok view ∧ ∃ cache, iv' = { iv with markCache := cache } ∧ Cached S nodes cache := by
      intro h
      obtain ⟨_,hr,heq⟩ := map_eq_ok h
      obtain ⟨rfl,rfl⟩ := Prod.mk.inj heq
      rw [hview]
      exact ⟨hr,_,rfl,hc.insert hns (hview.trans hr)⟩
    rw [hns] at h
    dsimp only at h
    split at h
    · rename_i cached hcached
      split at h
      · rename_i hgen
        obtain ⟨rfl,rfl⟩ := Prod.mk.inj (Except.ok.inj h)
        obtain ⟨ns',hns',_,hok⟩ := hc id _ hcached
        obtain rfl : ns = ns' := Option.some.inj (hns.symm.trans hns')
        exact ⟨hok hgen,_,rfl,hc⟩
      · exact hread h
    · exact hread h

theorem durableMarks_error {id : Nat} {err : CheckErr} (h : iv.durableMarks S (nodes id) id = .error err) :
    viewOf S nodes id = .error err := by
  unfold Invariants.durableMarks at h
  unfold viewOf
  have hread : ∀ {ns : NodeState σ}, ((readView S id ns.storage.generation ns.storage.storage).map fun view =>
      (view,{ iv with markCache := iv.markCache.insert id view })) = .error err →
      readView S id ns.storage.generation ns.storage.storage = .error err := by
    intro ns h
    cases hr : readView S id ns.storage.generation ns.storage.storage with
    | error e =>
      rw [hr] at h
      exact congrArg Except.error (Except.error.inj h)
    | ok v =>
      rw [hr] at h
      cases h
  cases hns : nodes id with
  | none =>
    rw [hns] at h
    cases h
  | some ns =>
    rw [hns] at h
    dsimp only at h ⊢
    split at h
    · split at h
      · cases h
      · exact hread h
    · exact hread h

end Views

/-- The snapshot of `v` or one of its marks contradicts one before it; the mark only if no earlier one at the index has
a higher term. -/
def Against (vs : List DurableCache) (v : DurableCache) : Prop :=
  (0 < v.snapshotIndex ∧ ∃ u ∈ vs, u.snapshotIndex = v.snapshotIndex ∧
    (u.snapshotTerm ≠ v.snapshotTerm ∨ u.snapshotData ≠ v.snapshotData)) ∨
  ∃ (idx : Nat) (m : LogMark), v.marks[idx]? = some m ∧ (∃ u ∈ vs, ∃ m' : LogMark, u.marks[idx]? = some m' ∧ m'.term = m.term ∧ m'.digest ≠ m.digest) ∧
    ∀ u ∈ vs, ∀ m' : LogMark, u.marks[idx]? = some m' → m'.term ≤ m.term

/-- The running marks after some views: of the highest term, and all marks of that term agree with them. -/
structure Seen (vs : List DurableCache) (seen : ExtTreeMap Nat LogMark) : Prop where
  source : ∀ (idx : Nat) (m : LogMark), seen[idx]? = some m → ∃ v ∈ vs, v.marks[idx]? = some m
  top : ∀ v ∈ vs, ∀ (idx : Nat) (m : LogMark), v.marks[idx]? = some m →
    ∃ m' : LogMark, seen[idx]? = some m' ∧ m.term ≤ m'.term ∧ (m.term = m'.term → m.digest = m'.digest)

structure SeenSnapshots (vs : List DurableCache) (snapshots : ExtTreeMap Nat LogMark) : Prop where
  source : ∀ (idx : Nat) (m : LogMark), snapshots[idx]? = some m →
    ∃ v ∈ vs, v.snapshotIndex = idx ∧ v.snapshotTerm = m.term ∧ v.snapshotData = m.digest
  all : ∀ v ∈ vs, 0 < v.snapshotIndex →
    ∃ m : LogMark, snapshots[v.snapshotIndex]? = some m ∧ m.term = v.snapshotTerm ∧ m.digest = v.snapshotData

/-- The mark that stays of two. -/
def higher (prev : Option LogMark) (m : LogMark) : LogMark :=
  match prev with
  | none => m
  | some prev => if m.term > prev.term then m else prev

/-- A mark that the running one contradicts. -/
def Contradicts (seen : ExtTreeMap Nat LogMark) (p : Nat × LogMark) : Prop :=
  ∃ prev : LogMark, seen[p.1]? = some prev ∧ prev.term = p.2.term ∧ prev.digest ≠ p.2.digest

private theorem matchMark_ok {id : Nat} {seen seen' : ExtTreeMap Nat LogMark} {p : Nat × LogMark}
    (h : Invariants.matchMark id seen p = .ok seen') :
    ¬ Contradicts seen p ∧ seen'[p.1]? = some (higher seen[p.1]? p.2) ∧ ∀ idx, idx ≠ p.1 → seen'[idx]? = seen[idx]? := by
  have hinsert : ∀ idx, idx ≠ p.1 → (seen.insert p.1 p.2)[idx]? = seen[idx]? := by
    intro idx hne
    rw [ExtTreeMap.getElem?_insert,if_neg (by simpa using Ne.symm hne)]
  unfold Invariants.matchMark at h
  unfold Contradicts
  cases hseen : seen[p.1]? with
  | none =>
    rw [hseen] at h
    cases h
    refine ⟨by simp,?_,hinsert⟩
    rw [ExtTreeMap.getElem?_insert_self]
    rfl
  | some prev =>
    rw [hseen] at h
    dsimp only at h
    split at h
    · cases h
    rename_i hno
    refine ⟨fun ⟨prev',hprev',hterm,hdigest⟩ => hno (Option.some.inj hprev' ▸ ⟨hterm,hdigest⟩),?_⟩
    unfold higher
    dsimp only
    split at h
    · rename_i hgt
      cases h
      rw [if_pos hgt,ExtTreeMap.getElem?_insert_self]
      exact ⟨rfl,hinsert⟩
    rename_i hgt
    cases h
    rw [if_neg hgt]
    exact ⟨hseen,fun _ _ => rfl⟩

private theorem matchMark_error {id : Nat} {seen : ExtTreeMap Nat LogMark} {p : Nat × LogMark} {err : CheckErr}
    (h : Invariants.matchMark id seen p = .error err) : Contradicts seen p := by
  unfold Invariants.matchMark at h
  cases hseen : seen[p.1]? with
  | none =>
    rw [hseen] at h
    cases h
  | some prev =>
    rw [hseen] at h
    dsimp only at h
    split at h
    · rename_i hc
      exact ⟨prev,hseen,hc⟩
    · split at h <;> cases h

theorem foldlM_matchMark (id : Nat) {l : List (Nat × LogMark)} (hkeys : (l.map (·.1)).Nodup)
    (seen : ExtTreeMap Nat LogMark) :
    match l.foldlM (Invariants.matchMark id) seen with
    | .error _ => ∃ p ∈ l, Contradicts seen p
    | .ok seen' => (∀ p ∈ l, ¬ Contradicts seen p ∧ seen'[p.1]? = some (higher seen[p.1]? p.2)) ∧
        ∀ idx, (∀ p ∈ l, p.1 ≠ idx) → seen'[idx]? = seen[idx]? := by
  induction l generalizing seen with
  | nil => exact ⟨by simp,fun _ _ => rfl⟩
  | cons p l ih =>
    obtain ⟨hp,hl⟩ := List.nodup_cons.mp hkeys
    have hne : ∀ q ∈ l, q.1 ≠ p.1 := by
      intro q hq heq
      exact hp (List.mem_map.mpr ⟨q,hq,heq⟩)
    rw [List.foldlM_cons]
    cases hstep : Invariants.matchMark id seen p with
    | error err => exact ⟨p,by simp,matchMark_error hstep⟩
    | ok seen₁ =>
      obtain ⟨hno,hself,hother⟩ := matchMark_ok hstep
      have hsame : ∀ q ∈ l, Contradicts seen₁ q ↔ Contradicts seen q := by
        intro q hq
        rw [Contradicts,hother q.1 (hne q hq),Contradicts]
      have := ih hl seen₁
      change match l.foldlM (Invariants.matchMark id) seen₁ with | .error _ => _ | .ok _ => _
      cases hrest : l.foldlM (Invariants.matchMark id) seen₁ with
      | error err =>
        rw [hrest] at this
        obtain ⟨q,hq,hc⟩ := this
        exact ⟨q,by simp [hq],(hsame q hq).mp hc⟩
      | ok seen' =>
        rw [hrest] at this
        obtain ⟨hmarks,hframe⟩ := this
        refine ⟨?_,?_⟩
        · intro q hq
          rcases List.mem_cons.mp hq with rfl | hq
          · exact ⟨hno,by rw [hframe q.1 hne,hself]⟩
          · obtain ⟨hnq,hget⟩ := hmarks q hq
            exact ⟨fun hc => hnq ((hsame q hq).mpr hc),by rw [hget,hother q.1 (hne q hq)]⟩
        · intro idx hidx
          rw [hframe idx fun q hq => hidx q (by simp [hq]),hother idx (Ne.symm (hidx p (by simp)))]

theorem Seen.snoc {vs : List DurableCache} {seen seen' : ExtTreeMap Nat LogMark} (h : Seen vs seen) {v : DurableCache}
    (hmarks : ∀ (idx : Nat) (m : LogMark), v.marks[idx]? = some m →
      ¬ Contradicts seen (idx,m) ∧ seen'[idx]? = some (higher seen[idx]? m))
    (hframe : ∀ idx : Nat, v.marks[idx]? = none → seen'[idx]? = seen[idx]?) : Seen (vs ++ [v]) seen' where
  source := by
    intro idx m hm
    cases hv : v.marks[idx]? with
    | none =>
      rw [hframe idx hv] at hm
      obtain ⟨u,hu,hget⟩ := h.source idx m hm
      exact ⟨u,by simp [hu],hget⟩
    | some mv =>
      rw [(hmarks idx mv hv).2] at hm
      obtain rfl := Option.some.inj hm
      unfold higher
      cases hseen : seen[idx]? with
      | none => exact ⟨v,by simp,hv⟩
      | some prev =>
        dsimp only
        split
        · exact ⟨v,by simp,hv⟩
        · obtain ⟨u,hu,hget⟩ := h.source idx prev hseen
          exact ⟨u,by simp [hu],hget⟩
  top := by
    intro u hu idx m hm
    rcases List.mem_append.mp hu with hu | hu
    · obtain ⟨prev,hprev,hle,hdig⟩ := h.top u hu idx m hm
      cases hv : v.marks[idx]? with
      | none => exact ⟨prev,by rw [hframe idx hv,hprev],hle,hdig⟩
      | some mv =>
        refine ⟨_,(hmarks idx mv hv).2,?_⟩
        unfold higher
        rw [hprev]
        dsimp only
        split
        · exact ⟨by omega,fun heq => by omega⟩
        · exact ⟨hle,hdig⟩
    obtain rfl := List.mem_singleton.mp hu
    obtain ⟨hno,hget⟩ := hmarks idx m hm
    refine ⟨_,hget,?_⟩
    unfold higher
    cases hseen : seen[idx]? with
    | none => exact ⟨le_rfl,fun _ => rfl⟩
    | some prev =>
      dsimp only
      split
      · exact ⟨le_rfl,fun _ => rfl⟩
      refine ⟨by omega,fun heq => ?_⟩
      by_contra hne
      exact hno ⟨prev,hseen,heq.symm,fun h => hne h.symm⟩

theorem Seen.contradicts_iff {vs : List DurableCache} {seen : ExtTreeMap Nat LogMark} (h : Seen vs seen) (idx : Nat)
    (m : LogMark) : Contradicts seen (idx,m) ↔
      (∃ u ∈ vs, ∃ m' : LogMark, u.marks[idx]? = some m' ∧ m'.term = m.term ∧ m'.digest ≠ m.digest) ∧
        ∀ u ∈ vs, ∀ m' : LogMark, u.marks[idx]? = some m' → m'.term ≤ m.term := by
  constructor
  · rintro ⟨prev,hprev,hterm,hdigest⟩
    obtain ⟨u,hu,hget⟩ := h.source idx prev hprev
    refine ⟨⟨u,hu,prev,hget,hterm,hdigest⟩,fun w hw m' hm' => ?_⟩
    obtain ⟨top,htop,hle,_⟩ := h.top w hw idx m' hm'
    obtain rfl := Option.some.inj (hprev.symm.trans htop)
    exact hle.trans hterm.le
  rintro ⟨⟨u,hu,m',hm',hterm,hdigest⟩,hmax⟩
  obtain ⟨top,htop,hle,hsame⟩ := h.top u hu idx m' hm'
  obtain ⟨w,hw,hget⟩ := h.source idx top htop
  have htopLe := hmax w hw top hget
  have heq : m'.term = top.term := by omega
  exact ⟨top,htop,heq.symm.trans hterm,hsame heq ▸ hdigest⟩

private theorem matchSnapshot_ok {vs : List DurableCache} {snapshots snapshots' : ExtTreeMap Nat LogMark}
    (h : SeenSnapshots vs snapshots) {v : DurableCache} {id : Nat}
    (hok : Invariants.matchSnapshot snapshots v id = .ok snapshots') :
    SeenSnapshots (vs ++ [v]) snapshots' ∧ ¬ (0 < v.snapshotIndex ∧ ∃ u ∈ vs, u.snapshotIndex = v.snapshotIndex ∧
      (u.snapshotTerm ≠ v.snapshotTerm ∨ u.snapshotData ≠ v.snapshotData)) := by
  unfold Invariants.matchSnapshot at hok
  split at hok
  · rename_i hpos
    -- What is there under the index agrees with the new snapshot, which takes its place.
    have hagree : ∀ prev : LogMark, snapshots[v.snapshotIndex]? = some prev →
        prev.term = v.snapshotTerm ∧ prev.digest = v.snapshotData := by
      intro prev hprev
      rw [hprev] at hok
      dsimp only at hok
      split at hok
      · cases hok
      · rename_i hno
        simpa using hno
    have hins : snapshots' = snapshots.insert v.snapshotIndex
        { term := v.snapshotTerm, digest := v.snapshotData, node := id, termKnown := true, dataKnown := true } := by
      dsimp only at hok
      split at hok
      · split at hok
        · cases hok
        · exact (Except.ok.inj hok).symm
      · exact (Except.ok.inj hok).symm
    subst hins
    refine ⟨⟨?_,?_⟩,?_⟩
    · intro idx m hm
      rw [ExtTreeMap.getElem?_insert] at hm
      split at hm
      · rename_i heq
        obtain rfl := Option.some.inj hm
        exact ⟨v,by simp,Std.compare_eq_iff_eq.mp heq,rfl,rfl⟩
      · obtain ⟨u,hu,hrest⟩ := h.source idx m hm
        exact ⟨u,by simp [hu],hrest⟩
    · intro u hu hupos
      rw [ExtTreeMap.getElem?_insert]
      split
      · rename_i heq
        have heq := Std.compare_eq_iff_eq.mp heq
        refine ⟨_,rfl,?_⟩
        rcases List.mem_append.mp hu with hu | hu
        · obtain ⟨prev,hprev,hterm,hdata⟩ := h.all u hu hupos
          rw [← heq] at hprev
          obtain ⟨hterm',hdata'⟩ := hagree prev hprev
          exact ⟨hterm'.symm.trans hterm,hdata'.symm.trans hdata⟩
        · obtain rfl := List.mem_singleton.mp hu
          exact ⟨rfl,rfl⟩
      rename_i hne
      rcases List.mem_append.mp hu with hu | hu
      · exact h.all u hu hupos
      · obtain rfl := List.mem_singleton.mp hu
        exact absurd (Std.compare_eq_iff_eq.mpr rfl) hne
    rintro ⟨_,u,hu,hidx,hne⟩
    obtain ⟨prev,hprev,hterm,hdata⟩ := h.all u hu (hidx ▸ hpos)
    rw [hidx] at hprev
    obtain ⟨hterm',hdata'⟩ := hagree prev hprev
    rcases hne with hne | hne
    · exact hne (hterm.symm.trans hterm')
    · exact hne (hdata.symm.trans hdata')
  rename_i hpos
  obtain rfl := Except.ok.inj hok
  refine ⟨⟨?_,?_⟩,fun hc => hpos hc.1⟩
  · intro idx m hm
    obtain ⟨u,hu,hrest⟩ := h.source idx m hm
    exact ⟨u,by simp [hu],hrest⟩
  intro u hu hupos
  rcases List.mem_append.mp hu with hu | hu
  · exact h.all u hu hupos
  · obtain rfl := List.mem_singleton.mp hu
    exact absurd hupos hpos

private theorem matchSnapshot_error {vs : List DurableCache} {snapshots : ExtTreeMap Nat LogMark}
    (h : SeenSnapshots vs snapshots) {v : DurableCache} {id : Nat} {err : CheckErr}
    (herr : Invariants.matchSnapshot snapshots v id = .error err) :
    0 < v.snapshotIndex ∧ ∃ u ∈ vs, u.snapshotIndex = v.snapshotIndex ∧
      (u.snapshotTerm ≠ v.snapshotTerm ∨ u.snapshotData ≠ v.snapshotData) := by
  unfold Invariants.matchSnapshot at herr
  split at herr
  · rename_i hpos
    refine ⟨hpos,?_⟩
    cases hget : snapshots[v.snapshotIndex]? with
    | none =>
      rw [hget] at herr
      cases herr
    | some prev =>
      rw [hget] at herr
      dsimp only at herr
      split at herr
      · rename_i hne
        obtain ⟨u,hu,hidx,hterm,hdata⟩ := h.source _ prev hget
        exact ⟨u,hu,hidx,by rwa [hterm,hdata]⟩
      · cases herr
  · cases herr

section Peers
variable {σ : Type} {S : LogStorage σ} {nodes : Nat → Option (NodeState σ)} {it : Iteration}

private theorem mem_order {id : Nat} {marks : ExtTreeMap Nat LogMark} {p : Nat × LogMark} :
    p ∈ it.order id marks.toList ↔ marks[p.1]? = some p.2 := by
  rw [(it.perm id _).mem_iff]
  exact ExtTreeMap.mem_toList_iff_getElem?_eq_some

private theorem nodup_order (it : Iteration) (id : Nat) (marks : ExtTreeMap Nat LogMark) :
    ((it.order id marks.toList).map (·.1)).Nodup := by
  rw [((it.perm id marks.toList).map _).nodup_iff,List.Nodup,List.pairwise_map]
  exact ExtTreeMap.distinct_keys_toList.imp fun h heq => h (Std.compare_eq_iff_eq.mpr heq)

/-- What the check keeps while it goes through the nodes. -/
structure Matched (S : LogStorage σ) (nodes : Nat → Option (NodeState σ)) (vs : List DurableCache)
    (acc : Invariants.Matching) : Prop where
  seen : Seen vs acc.1
  snapshots : SeenSnapshots vs acc.2.1
  cached : Cached S nodes acc.2.2.markCache

theorem matchPeer_spec (it : Iteration) {vs : List DurableCache} {acc : Invariants.Matching}
    (h : Matched S nodes vs acc) (id : Nat) :
    match Invariants.matchPeer S nodes it acc id with
    | .error _ => ∀ v, viewOf S nodes id = .ok v → Against vs v
    | .ok acc' => ∃ v, viewOf S nodes id = .ok v ∧ ¬ Against vs v ∧ Matched S nodes (vs ++ [v]) acc' ∧
        ∃ cache, acc'.2.2 = { acc.2.2 with markCache := cache } := by
  unfold Invariants.matchPeer
  cases hview : acc.2.2.durableMarks S (nodes id) id with
  | error err =>
    intro v hv
    rw [durableMarks_error hview] at hv
    cases hv
  | ok r =>
    obtain ⟨view,iv⟩ := r
    obtain ⟨hv,cache,hcache,hcached⟩ := durableMarks_ok h.cached hview
    have huniq : ∀ v, viewOf S nodes id = .ok v → v = view := fun v hv' => Except.ok.inj (hv'.symm.trans hv)
    change match (Invariants.matchSnapshot acc.2.1 view id >>= fun snapshots =>
      (it.order id view.marks.toList).foldlM (Invariants.matchMark id) acc.1 >>= fun seen =>
        pure (seen,snapshots,iv)) with | .error _ => _ | .ok _ => _
    cases hsnap : Invariants.matchSnapshot acc.2.1 view id with
    | error err =>
      intro v hv'
      rw [huniq v hv']
      exact .inl (matchSnapshot_error h.snapshots hsnap)
    | ok snapshots =>
      obtain ⟨hsnaps,hno⟩ := matchSnapshot_ok h.snapshots hsnap
      have hfold := foldlM_matchMark id (nodup_order it id view.marks) acc.1
      change match ((it.order id view.marks.toList).foldlM (Invariants.matchMark id) acc.1 >>= fun seen =>
        (pure (seen,snapshots,iv) : Except CheckErr Invariants.Matching)) with | .error _ => _ | .ok _ => _
      cases hmarks : (it.order id view.marks.toList).foldlM (Invariants.matchMark id) acc.1 with
      | error err =>
        rw [hmarks] at hfold
        obtain ⟨p,hp,hc⟩ := hfold
        intro v hv'
        rw [huniq v hv']
        exact .inr ⟨p.1,p.2,mem_order.mp hp,(h.seen.contradicts_iff p.1 p.2).mp hc⟩
      | ok seen =>
        rw [hmarks] at hfold
        obtain ⟨hall,hframe⟩ := hfold
        have hall' : ∀ (idx : Nat) (m : LogMark), view.marks[idx]? = some m →
            ¬ Contradicts acc.1 (idx,m) ∧ seen[idx]? = some (higher acc.1[idx]? m) :=
          fun idx m hm => hall (idx,m) (mem_order.mpr hm)
        refine ⟨view,hv,?_,⟨?_,hsnaps,?_⟩,cache,hcache⟩
        · rintro (hc | ⟨idx,m,hm,hc⟩)
          · exact hno hc
          · exact (hall' idx m hm).1 ((h.seen.contradicts_iff idx m).mpr hc)
        · refine h.seen.snoc hall' fun idx hidx => hframe idx fun p hp heq => ?_
          have := mem_order.mp hp
          rw [heq,hidx] at this
          cases this
        · rw [hcache]
          exact hcached

/-- A view that cannot be read, or one against those before it. -/
def Clash (S : LogStorage σ) (nodes : Nat → Option (NodeState σ)) (vs : List DurableCache) (peers : List Nat) : Prop :=
  ∃ pre id post us, peers = pre ++ id :: post ∧ List.Forall₂ (fun id v => viewOf S nodes id = .ok v) pre us ∧
    ∀ v, viewOf S nodes id = .ok v → Against (vs ++ us) v

private theorem foldlM_matchPeer (it : Iteration) (peers : List Nat) {vs : List DurableCache} {acc : Invariants.Matching}
    (h : Matched S nodes vs acc) :
    match peers.foldlM (Invariants.matchPeer S nodes it) acc with
    | .error _ => Clash S nodes vs peers
    | .ok acc' => ¬ Clash S nodes vs peers ∧ Cached S nodes acc'.2.2.markCache ∧
        ∃ cache, acc'.2.2 = { acc.2.2 with markCache := cache } := by
  induction peers generalizing vs acc with
  | nil =>
    refine ⟨?_,h.cached,_,rfl⟩
    rintro ⟨pre,id,post,us,hsplit,_⟩
    simp at hsplit
  | cons id peers ih =>
    have hpeer := matchPeer_spec it h id
    rw [List.foldlM_cons]
    cases hstep : Invariants.matchPeer S nodes it acc id with
    | error err =>
      rw [hstep] at hpeer
      exact ⟨[],id,peers,[],rfl,.nil,by simpa using hpeer⟩
    | ok acc₁ =>
      rw [hstep] at hpeer
      obtain ⟨v,hv,hno,hmatched,cache,hcache⟩ := hpeer
      have hrest := ih hmatched
      change match peers.foldlM (Invariants.matchPeer S nodes it) acc₁ with | .error _ => _ | .ok _ => _
      cases hfold : peers.foldlM (Invariants.matchPeer S nodes it) acc₁ with
      | error err =>
        rw [hfold] at hrest
        obtain ⟨pre,id',post,us,rfl,hus,hag⟩ := hrest
        exact ⟨id :: pre,id',post,v :: us,rfl,.cons hv hus,by simpa using hag⟩
      | ok acc' =>
        rw [hfold] at hrest
        obtain ⟨hclash,hcached,cache',hcache'⟩ := hrest
        refine ⟨?_,hcached,cache',by rw [hcache',hcache]⟩
        rintro ⟨pre,id',post,us,hsplit,hus,hag⟩
        cases pre with
        | nil =>
          obtain ⟨rfl,_⟩ := List.cons.inj hsplit
          cases hus
          exact hno (by simpa using hag v hv)
        | cons _ pre =>
          obtain ⟨rfl,rfl⟩ := List.cons.inj hsplit
          cases hus with
          | cons hu hus =>
            obtain rfl := Except.ok.inj (hu.symm.trans hv)
            exact hclash ⟨pre,id',post,_,rfl,hus,by simpa using hag⟩

private theorem matched_nil {iv : Invariants} (hc : Cached S nodes iv.markCache) : Matched S nodes [] (∅,∅,iv) where
  seen := ⟨by simp,by simp⟩
  snapshots := ⟨by simp,by simp⟩
  cached := hc

theorem checkLogMatching_error_iff {iv : Invariants} (hc : Cached S nodes iv.markCache) :
    (∃ err, iv.checkLogMatching S nodes it = .error err) ↔ Clash S nodes [] iv.peers := by
  have h := foldlM_matchPeer it iv.peers (matched_nil hc)
  unfold Invariants.checkLogMatching
  cases hfold : iv.peers.foldlM (Invariants.matchPeer S nodes it) (∅,∅,iv) with
  | error err =>
    rw [hfold] at h
    exact ⟨fun _ => h,fun _ => ⟨err,rfl⟩⟩
  | ok acc =>
    rw [hfold] at h
    exact ⟨fun ⟨_,he⟩ => (nomatch he),fun hclash => absurd hclash h.1⟩

theorem checkLogMatching_ok {iv iv' : Invariants} (hc : Cached S nodes iv.markCache)
    (h : iv.checkLogMatching S nodes it = .ok iv') :
    ∃ cache, iv' = { iv with markCache := cache } ∧ Cached S nodes cache := by
  obtain ⟨acc,hacc,rfl⟩ := map_eq_ok h
  have hfold := foldlM_matchPeer it iv.peers (matched_nil hc)
  rw [hacc] at hfold
  obtain ⟨_,hcached,cache,hcache⟩ := hfold
  rw [hcache] at hcached
  exact ⟨cache,hcache,hcached⟩

end Peers
theorem getElem?_marksOf (id idx : Nat) (entries : List Entry) :
    (marksOf id entries)[idx]? = (entries.reverse.find? (·.index = idx)).map (entryMark id) := by
  suffices h : ∀ m : ExtTreeMap Nat LogMark,
      (entries.foldl (fun m e => m.insert e.index (entryMark id e)) m)[idx]? =
        ((entries.reverse.find? (·.index = idx)).map (entryMark id)).or m[idx]? by
    simpa [marksOf] using h ∅
  induction entries with
  | nil => simp
  | cons e entries ih =>
    intro m
    rw [List.foldl_cons,ih,List.reverse_cons,List.find?_append,ExtTreeMap.getElem?_insert]
    cases entries.reverse.find? (·.index = idx) with
    | some e' => rfl
    | none =>
      by_cases he : e.index = idx <;> simp [he]

private theorem readView_mem (id generation : Nat) (s : Storage) : readView mem id generation s = .ok {
    generation := generation
    marks := marksOf id s.entries
    snapshotIndex := s.snapshot.metadata.index
    snapshotTerm := s.snapshot.metadata.term
    snapshotData := fnv64 s.snapshot.data } := by
  have hmarks : readMarks mem id s.firstIndex s.lastIndex s = .ok (marksOf id s.entries) := by
    unfold readMarks
    split
    · rename_i hsome
      have hread : mem.entries s s.firstIndex (s.lastIndex + 1) = .ok s.entries := by
        simp only [Storage.firstIndex,Storage.lastIndex] at hsome ⊢
        simp only [mem,Storage.entriesIn]
        rw [if_neg (by omega),if_neg (by omega),if_neg (by omega),if_neg (by omega),
          List.take_of_length_le (by omega),show s.offset + 1 - s.offset - 1 = 0 by omega,List.drop_zero]
      rw [hread]
      rfl
    rename_i hnone
    have hnil : s.entries = [] := by
      simp only [Storage.firstIndex,Storage.lastIndex] at hnone
      exact List.length_eq_zero_iff.mp (by omega)
    rw [hnil]
    rfl
  unfold readView
  change (readMarks mem id s.firstIndex s.lastIndex s >>= _) = _
  rw [hmarks]
  rfl

section Mem
variable (nodes : Nat → Option (NodeState Storage))

/-- The entry that the node's log holds at its index. -/
def Holds (id : Nat) (e : Entry) : Prop :=
  ∃ ns, nodes id = some ns ∧ ns.storage.storage.entries.reverse.find? (·.index = e.index) = some e

def HoldsSnapshot (id : Nat) (snap : Snapshot) : Prop :=
  ∃ ns, nodes id = some ns ∧ ns.storage.storage.snapshot = snap ∧ 0 < snap.metadata.index

/-- Two entries of one index and term with different digests. -/
def Differ (e e' : Entry) : Prop := e.index = e'.index ∧ e.term = e'.term ∧ fnv64 e.data ≠ fnv64 e'.data

def LogConflict (peers : List Nat) : Prop :=
  ∃ a ∈ peers, ∃ b ∈ peers, ∃ e e', Holds nodes a e ∧ Holds nodes b e' ∧ Differ e e'

def SnapshotConflict (peers : List Nat) : Prop :=
  ∃ a ∈ peers, ∃ b ∈ peers, ∃ s s', HoldsSnapshot nodes a s ∧ HoldsSnapshot nodes b s' ∧
    s.metadata.index = s'.metadata.index ∧ (s.metadata.term ≠ s'.metadata.term ∨ fnv64 s.data ≠ fnv64 s'.data)

/-- A conflict of two logs in front of whose second no log has a higher term at the index. -/
def OpenConflict (peers : List Nat) : Prop :=
  ∃ pre b post, peers = pre ++ b :: post ∧ ∃ a ∈ pre, ∃ e e', Holds nodes a e ∧ Holds nodes b e' ∧ Differ e e' ∧
    ∀ c ∈ pre, ∀ e'', Holds nodes c e'' → e''.index = e.index → e''.term ≤ e.term

/-- The view of a node on mem.Storage. -/
def memView (id : Nat) : DurableCache :=
  match nodes id with
  | none => {}
  | some ns => {
      generation := ns.storage.generation
      marks := marksOf id ns.storage.storage.entries
      snapshotIndex := ns.storage.storage.snapshot.metadata.index
      snapshotTerm := ns.storage.storage.snapshot.metadata.term
      snapshotData := fnv64 ns.storage.storage.snapshot.data }

theorem viewOf_mem (id : Nat) : viewOf mem nodes id = .ok (memView nodes id) := by
  unfold viewOf memView
  cases nodes id with
  | none => rfl
  | some ns => exact readView_mem ..

variable {nodes}

theorem memView_marks {id idx : Nat} {m : LogMark} :
    (memView nodes id).marks[idx]? = some m ↔ ∃ e, Holds nodes id e ∧ e.index = idx ∧ entryMark id e = m := by
  unfold memView Holds
  cases nodes id with
  | none => simp
  | some ns =>
    rw [getElem?_marksOf,Option.map_eq_some_iff]
    constructor
    · rintro ⟨e,he,rfl⟩
      obtain rfl : e.index = idx := by simpa using List.find?_some he
      exact ⟨e,⟨ns,rfl,he⟩,rfl,rfl⟩
    rintro ⟨e,⟨ns',hns,he⟩,rfl,rfl⟩
    obtain rfl := Option.some.inj hns
    exact ⟨e,he,rfl⟩

private theorem memView_snapshot {id : Nat} (h : 0 < (memView nodes id).snapshotIndex) :
    ∃ s, HoldsSnapshot nodes id s ∧ (memView nodes id).snapshotIndex = s.metadata.index ∧
      (memView nodes id).snapshotTerm = s.metadata.term ∧ (memView nodes id).snapshotData = fnv64 s.data := by
  unfold memView HoldsSnapshot at *
  cases hns : nodes id with
  | none =>
    rw [hns] at h
    exact absurd h (Nat.lt_irrefl 0)
  | some ns =>
    rw [hns] at h
    exact ⟨_,⟨ns,rfl,rfl,h⟩,rfl,rfl,rfl⟩

theorem HoldsSnapshot.view {id : Nat} {s : Snapshot} (h : HoldsSnapshot nodes id s) :
    (memView nodes id).snapshotIndex = s.metadata.index ∧ (memView nodes id).snapshotTerm = s.metadata.term ∧
      (memView nodes id).snapshotData = fnv64 s.data := by
  obtain ⟨ns,hns,rfl,_⟩ := h
  unfold memView
  rw [hns]
  exact ⟨rfl,rfl,rfl⟩

private theorem forall₂_viewOf {pre : List Nat} {us : List DurableCache} :
    List.Forall₂ (fun id v => viewOf mem nodes id = .ok v) pre us ↔ us = pre.map (memView nodes) := by
  induction pre generalizing us with
  | nil => simp
  | cons id pre ih =>
    rw [List.forall₂_cons_left_iff]
    constructor
    · rintro ⟨v,vs,hv,hvs,rfl⟩
      rw [ih.mp hvs,Except.ok.inj (hv.symm.trans (viewOf_mem nodes id)),List.map_cons]
    · rintro rfl
      exact ⟨_,_,viewOf_mem nodes id,ih.mpr rfl,rfl⟩

theorem split_pair {a b : Nat} (hne : a ≠ b) {peers : List Nat} (ha : a ∈ peers) (hb : b ∈ peers) :
    ∃ pre x post, peers = pre ++ x :: post ∧ ((x = b ∧ a ∈ pre) ∨ (x = a ∧ b ∈ pre)) := by
  obtain ⟨pre,post,rfl⟩ := List.append_of_mem hb
  rcases List.mem_append.mp ha with ha | ha
  · exact ⟨pre,b,post,rfl,.inl ⟨rfl,ha⟩⟩
  · obtain ⟨mid,rest,rfl⟩ := List.append_of_mem ((List.mem_cons.mp ha).resolve_left hne)
    exact ⟨pre ++ b :: mid,a,rest,by simp,.inr ⟨rfl,by simp⟩⟩

theorem HoldsSnapshot.unique {id : Nat} {s s' : Snapshot} (h : HoldsSnapshot nodes id s) (h' : HoldsSnapshot nodes id s') :
    s = s' := by
  obtain ⟨ns,hns,rfl,_⟩ := h
  obtain ⟨ns',hns',rfl,_⟩ := h'
  rw [Option.some.inj (hns.symm.trans hns')]

theorem clash_mem_iff {peers : List Nat} :
    Clash mem nodes [] peers ↔ SnapshotConflict nodes peers ∨ OpenConflict nodes peers := by
  constructor
  · rintro ⟨pre,b,post,us,rfl,hus,hag⟩
    obtain rfl := forall₂_viewOf.mp hus
    rcases hag _ (viewOf_mem nodes b) with ⟨hpos,u,hu,hidx,hne⟩ | ⟨idx,m,hm,⟨u,hu,m',hm',hterm,hdigest⟩,hmax⟩
    · obtain ⟨a,ha,rfl⟩ := List.mem_map.mp hu
      obtain ⟨s,hs,hsi,hst,hsd⟩ := memView_snapshot (hidx ▸ hpos)
      obtain ⟨s',hs',hsi',hst',hsd'⟩ := memView_snapshot hpos
      rw [hst,hst',hsd,hsd'] at hne
      exact .inl ⟨a,by simp [ha],b,by simp,s,s',hs,hs',hsi.symm.trans (hidx.trans hsi'),hne⟩
    obtain ⟨a,ha,rfl⟩ := List.mem_map.mp hu
    obtain ⟨e',he',rfl,rfl⟩ := memView_marks.mp hm
    obtain ⟨e,he,heq,rfl⟩ := memView_marks.mp hm'
    refine .inr ⟨pre,b,post,rfl,a,ha,e,e',he,he',⟨heq,hterm,hdigest⟩,?_⟩
    intro c hc e'' he'' hidx
    have := hmax _ (List.mem_map_of_mem hc) _ (memView_marks.mpr ⟨e'',he'',hidx.trans heq,rfl⟩)
    exact this.trans hterm.ge
  rintro (⟨a,ha,b,hb,s,s',hs,hs',hidx,hne⟩ | ⟨pre,b,post,rfl,a,ha,e,e',he,he',⟨hidx,hterm,hdigest⟩,hmax⟩)
  · have hab : a ≠ b := by
      rintro rfl
      obtain rfl := hs.unique hs'
      simp at hne
    obtain ⟨hsi,hst,hsd⟩ := hs.view
    obtain ⟨hsi',hst',hsd'⟩ := hs'.view
    obtain ⟨_,_,_,hpos⟩ := hs
    obtain ⟨pre,x,post,rfl,⟨rfl,hmem⟩ | ⟨rfl,hmem⟩⟩ := split_pair hab ha hb
    · refine ⟨pre,x,post,_,rfl,forall₂_viewOf.mpr rfl,fun v hv => ?_⟩
      obtain rfl := Except.ok.inj (hv.symm.trans (viewOf_mem nodes x))
      refine .inl ⟨by omega,_,List.mem_map_of_mem hmem,by omega,?_⟩
      rwa [hst,hst',hsd,hsd']
    refine ⟨pre,x,post,_,rfl,forall₂_viewOf.mpr rfl,fun v hv => ?_⟩
    obtain rfl := Except.ok.inj (hv.symm.trans (viewOf_mem nodes x))
    refine .inl ⟨by omega,_,List.mem_map_of_mem hmem,by omega,?_⟩
    rw [hst,hst',hsd,hsd']
    exact hne.imp Ne.symm Ne.symm
  refine ⟨pre,b,post,_,rfl,forall₂_viewOf.mpr rfl,fun v hv => ?_⟩
  obtain rfl := Except.ok.inj (hv.symm.trans (viewOf_mem nodes b))
  refine .inr ⟨e'.index,_,memView_marks.mpr ⟨e',he',rfl,rfl⟩,
    ⟨_,List.mem_map_of_mem ha,_,memView_marks.mpr ⟨e,he,hidx,rfl⟩,hterm,hdigest⟩,?_⟩
  intro u hu m' hm'
  obtain ⟨c,hc,rfl⟩ := List.mem_map.mp hu
  obtain ⟨e'',he'',heq,rfl⟩ := memView_marks.mp hm'
  exact (hmax c hc e'' he'' (heq.trans hidx.symm)).trans hterm.le

theorem OpenConflict.logConflict {peers : List Nat} (h : OpenConflict nodes peers) : LogConflict nodes peers := by
  obtain ⟨pre,b,post,rfl,a,ha,e,e',he,he',hd,_⟩ := h
  exact ⟨a,by simp [ha],b,by simp,e,e',he,he',hd⟩

/-- The check fails just for the conflicts of snapshots and the open conflicts of logs. So it is exact just where a
conflict of logs comes with one of these. -/
theorem checkLogMatching_exact_iff (nodes : Nat → Option (NodeState Storage)) (peers : List Nat) (it : Iteration) :
    ((∃ err, ({ peers } : Invariants).checkLogMatching mem nodes it = .error err) ↔
      LogConflict nodes peers ∨ SnapshotConflict nodes peers) ↔
    (LogConflict nodes peers → SnapshotConflict nodes peers ∨ OpenConflict nodes peers) := by
  rw [checkLogMatching_error_iff cached_empty,clash_mem_iff]
  constructor
  · intro h hlog
    exact h.mpr (.inl hlog)
  intro h
  constructor
  · rintro (hs | hl)
    · exact .inr hs
    · exact .inl hl.logConflict
  rintro (hl | hs)
  · exact h hl
  · exact .inl hs

/-- One entry at index 1. -/
def single (term : Nat) (data : Bytes) : NodeState Storage :=
  { storage := { storage := { entries := [{ index := 1, term, data }] } } }

/-- Two logs that differ in term 1, and between them one with an entry of term 2. -/
def shadowed : Nat → Option (NodeState Storage)
  | 1 => some (single 1 [1])
  | 2 => some (single 2 [])
  | 3 => some (single 1 [2])
  | _ => none

theorem shadowed_conflict_not_seen :
    LogConflict shadowed [1,2,3] ∧
      ∃ iv, ({ peers := [1,2,3] } : Invariants).checkLogMatching mem shadowed Iteration.ascending = .ok iv := by
  constructor
  · refine ⟨1,by simp,3,by simp,{ index := 1, term := 1, data := [1] },{ index := 1, term := 1, data := [2] },
      ⟨_,rfl,rfl⟩,⟨_,rfl,rfl⟩,rfl,rfl,by decide⟩
  have hok : (({ peers := [1,2,3] } : Invariants).checkLogMatching mem shadowed Iteration.ascending).isOk = true := by
    decide +kernel
  cases h : ({ peers := [1,2,3] } : Invariants).checkLogMatching mem shadowed Iteration.ascending with
  | ok iv => exact ⟨iv,rfl⟩
  | error err =>
    rw [h] at hok
    cases hok

end Mem
end Parallax.Sim
