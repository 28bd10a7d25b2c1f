import Parallax.Sim.Refines

/-! What the simulator's checks look for is not there: nodes that stand for a reachable state of the cluster agree in what
they applied, in their logs and in their snapshots, no term has two leaders, and leaders have all that is committed. -/
namespace Parallax.Simulation
open Kv Sim Cluster Consensus Consensus.History
variable {S : Setup} {H : Hist} {k id : Nat} {w : World} {c : State (serving S).app}

theorem committed_agree (hg : Good S H) {t t' i : Nat} {q q' : List Entry} (hq : H.CommittedBy t q)
    (hq' : H.CommittedBy t' q') (hi : i < q.length) (hi' : i < q'.length) : q[i]? = q'[i]? := by
  rcases hq.comparable hg.inv hq' with ⟨zs,rfl⟩ | ⟨zs,rfl⟩
  · rw [List.getElem?_append_left hi]
  · rw [List.getElem?_append_left hi']

theorem committed_termAt (hg : Good S H) {t t' i : Nat} {q q' : List Entry} (hq : H.CommittedBy t q)
    (hq' : H.CommittedBy t' q') (hi : i ≤ q.length) (hi' : i ≤ q'.length) : termAt q i = termAt q' i := by
  rcases hq.comparable hg.inv hq' with hp | hp
  · rw [termAt_of_isPrefix hp hi]
  · rw [termAt_of_isPrefix hp hi']

theorem Applies.unique (hg : Good S H) {rec rec' : AppliedRec} (h : Applies H rec) (h' : Applies H rec')
    (hidx : rec.index = rec'.index) : rec = rec' := by
  obtain ⟨t,q,e,hq,_,he,rfl⟩ := h
  obtain ⟨t',q',e',hq',_,he',rfl⟩ := h'
  have hidx : e.index = e'.index := hidx
  rw [← hidx] at he'
  have heq := committed_agree hg hq hq' (List.getElem?_eq_some_iff.mp he).1 (List.getElem?_eq_some_iff.mp he').1
  obtain rfl := Option.some.inj (he.symm.trans (heq.trans he'))
  rfl

namespace Refines
variable (h : Refines S k w c H)
include h

private theorem logs_eq (hid : id ∈ S.peers) : Checker.logs w.observed id = some (w.nodes id).observed.toNodeState := by
  unfold Checker.logs World.observed
  rw [if_pos (h.peers ▸ hid)]
  rfl

private theorem observed_eq (hid : id ∈ S.peers) : w.observed id = some (w.nodes id).observed := by
  unfold World.observed
  rw [if_pos (h.peers ▸ hid)]

private theorem disk (hid : id ∈ S.peers) : DiskOK (serving S) H id (w.nodes id).storage.storage :=
  (h.mirrors id hid).disk ▸ (h.inv.hosts id hid).disk

theorem of_holds (hid : id ∈ S.peers) {e : Entry} (he : Holds (Checker.logs w.observed) id e) :
    0 < e.index ∧ (H.log id)[e.index - 1]? = some e := by
  obtain ⟨ns,hns,hfind⟩ := he
  rw [h.logs_eq hid] at hns
  obtain rfl := Option.some.inj hns
  have hmem : e ∈ (w.nodes id).storage.storage.entries := List.mem_reverse.mp (List.mem_of_find?_eq_some hfind)
  rw [(h.disk hid).repr.entries] at hmem
  obtain ⟨i,hi⟩ := List.mem_iff_getElem?.mp (List.mem_of_mem_drop hmem)
  have hidx := (h.disk hid).repr.indexed i e hi
  exact ⟨by omega,by rw [hidx]; exact hi⟩

theorem holds (hid : id ∈ S.peers) {e : Entry} (hlo : (w.nodes id).storage.storage.snapshot.metadata.index < e.index)
    (he : (H.log id)[e.index - 1]? = some e) : Holds (Checker.logs w.observed) id e := by
  have hmem := ((h.disk hid).holds (by omega) he).resolve_left (by omega)
  refine ⟨_,h.logs_eq hid,?_⟩
  cases hfind : (w.nodes id).observed.storage.storage.entries.reverse.find? (·.index = e.index) with
  | none =>
    have hno := List.find?_eq_none.mp hfind e (List.mem_reverse.mpr hmem)
    simp at hno
  | some e' =>
    have hidx : e'.index = e.index := by simpa using List.find?_some hfind
    have he' := (h.of_holds hid ⟨_,h.logs_eq hid,hidx ▸ hfind⟩).2
    rw [hidx,he] at he'
    exact he'.symm

theorem of_leading (hid : id ∈ S.peers) {t : Nat}
    (hl : Invariants.leading (w.nodes id).observed.toNodeState = some t) :
    H.Elected t id ∧ H.log id = H.lead t := by
  unfold Invariants.leading NodeState.observed at hl
  cases hnode : (w.nodes id).node with
  | none =>
    rw [hnode] at hl
    cases hl
  | some r =>
    rw [hnode] at hl
    simp only [Option.map_some] at hl
    split_ifs at hl with hno
    obtain rfl := Option.some.inj hl
    simp only [not_or,ne_eq,Decidable.not_not,Bool.not_eq_true] at hno
    have hup : (w.nodes id).up? = some r := by rw [NodeState.up?_of_not_crashed hno.1,hnode]
    obtain ⟨p,hp,hruns⟩ := (h.mirrors id hid).up r hup
    obtain rfl : p.raft = r := Option.some.inj (hruns.node.symm.trans hnode)
    have hlead := ((h.inv.hosts id hid).peer p hp).core.ok.leads hno.2.1
    exact ⟨hlead.elected,hlead.log⟩

private theorem not_diverge : ¬ Diverge (appliedRecs w.observed S.peers) := by
  have hall : ∀ rec ∈ appliedRecs w.observed S.peers, Applies H rec := by
    rintro rec ⟨id,hid,hrec⟩
    rw [h.observed_eq hid] at hrec
    exact h.applied id hid rec hrec
  rintro ⟨r,hr,r',hr',hidx,hne⟩
  exact hne ((hall r hr).unique h.inv.good (hall r' hr') hidx)

private theorem not_clash : ¬ Clash mem (Checker.logs w.observed) [] S.peers := by
  rw [clash_mem_iff]
  rintro (⟨a,ha,b,hb,s,s',hs,hs',hidx,hne⟩ | hopen)
  · obtain ⟨_,hns,rfl,hpos⟩ := hs
    obtain ⟨_,hns',rfl,_⟩ := hs'
    rw [h.logs_eq ha] at hns
    rw [h.logs_eq hb] at hns'
    obtain rfl := Option.some.inj hns
    obtain rfl := Option.some.inj hns'
    obtain ⟨q,hq,hqc,hqt,hqd⟩ := (h.disk ha).snap
    obtain ⟨q',hq',hqc',hqt',hqd'⟩ := (h.disk hb).snap
    have hlen : q.length = q'.length := hq.trans (hidx.trans hq'.symm)
    obtain rfl : q = q' := by
      rcases hqc.comparable h.inv.good.inv hqc' with hp | hp
      · exact hp.eq_of_length hlen
      · exact (hp.eq_of_length hlen.symm).symm
    refine hne.elim (fun hne => hne (hqt.trans ?_)) fun hne => hne (congrArg fnv64 ((hqd hpos).trans ?_))
    · exact hqt'.symm
    · exact (hqd' (hidx ▸ hpos)).symm
  obtain ⟨a,ha,b,hb,e,e',he,he',hidx,hterm,hdig⟩ := hopen.logConflict
  obtain ⟨hpos,hat⟩ := h.of_holds ha he
  obtain ⟨_,hat'⟩ := h.of_holds hb he'
  rw [← hidx] at hat'
  obtain ⟨i,hi⟩ : ∃ i, e.index = i + 1 := ⟨e.index - 1,by omega⟩
  rw [hi,Nat.add_sub_cancel] at hat hat'
  have htake := take_eq_of_termAt_eq (h.inv.good.inv.log_coh a) (h.inv.good.inv.log_coh b)
    (List.getElem?_eq_some_iff.mp hat).1 (List.getElem?_eq_some_iff.mp hat').1
    (by rw [termAt_succ_of_getElem? hat,termAt_succ_of_getElem? hat',hterm])
  have heq := congrArg (·[i]?) htake
  simp only [List.getElem?_take_of_lt (Nat.lt_succ_self i),hat,hat'] at heq
  exact hdig (by rw [Option.some.inj heq])

theorem of_recordFacts {f : Fact} (hf : f ∈ recordFacts (Checker.logs w.observed) S.peers) :
    ∃ rec, Records H rec ∧ f ∈ rec.facts ∧ rec.facts ⊆ recordFacts (Checker.logs w.observed) S.peers := by
  obtain ⟨id,hid,ns,hns,rec,hrec,hf⟩ := hf
  refine ⟨rec,?_,hf,fun f' hf' => ⟨id,hid,ns,hns,rec,hrec,hf'⟩⟩
  rw [h.logs_eq hid] at hns
  obtain rfl := Option.some.inj hns
  exact (h.kept id hid).records rec hrec

private theorem of_termFact {i t : Nat} (hf : .term i t ∈ recordFacts (Checker.logs w.observed) S.peers) :
    ∃ u q, H.CommittedBy u q ∧ i ≤ q.length ∧ t = termAt q i := by
  obtain ⟨rec,⟨q,hq,_,hle,hterm,_⟩,hf,_⟩ := h.of_recordFacts hf
  obtain rfl : i = rec.index := rec.index_of_mem hf
  obtain ⟨hk,rfl⟩ := mem_term.mp hf
  exact ⟨_,q,hq,hle,hterm hk⟩

private theorem of_digestFact {i : Nat} {d : UInt64} (hf : .digest i d ∈ recordFacts (Checker.logs w.observed) S.peers) :
    ∃ u q e, H.CommittedBy u q ∧ q[i - 1]? = some e ∧ d = fnv64 e.data := by
  obtain ⟨rec,⟨q,hq,_,_,_,hdig⟩,hf,_⟩ := h.of_recordFacts hf
  obtain rfl : i = rec.index := rec.index_of_mem hf
  obtain ⟨hk,rfl⟩ := mem_digest.mp hf
  obtain ⟨e,he,hd⟩ := hdig hk
  exact ⟨_,q,e,hq,he,hd⟩

private theorem consistent : Consistent (recordFacts (Checker.logs w.observed) S.peers) where
  term i t t' ht ht' := by
    obtain ⟨_,q,hq,hle,rfl⟩ := h.of_termFact ht
    obtain ⟨_,q',hq',hle',rfl⟩ := h.of_termFact ht'
    exact committed_termAt h.inv.good hq hq' hle hle'
  digest i d d' hd hd' := by
    obtain ⟨_,q,e,hq,he,rfl⟩ := h.of_digestFact hd
    obtain ⟨_,q',e',hq',he',rfl⟩ := h.of_digestFact hd'
    have heq := committed_agree h.inv.good hq hq' (List.getElem?_eq_some_iff.mp he).1 (List.getElem?_eq_some_iff.mp he').1
    rw [Option.some.inj (he.symm.trans (heq.trans he'))]

theorem exists_sums : ∃ committed, Sums (recordFacts (Checker.logs w.observed) S.peers) committed := by
  have hfacts : recordFacts (Checker.logs w.observed) S.peers =
      ∅ ∪ facts (S.peers.flatMap fun id => (w.nodes id).storage.committed) := by
    ext f
    simp only [recordFacts,facts,Set.empty_union,Set.mem_ofPred_eq,List.mem_flatMap]
    constructor
    · rintro ⟨id,hid,ns,hns,rec,hrec,hf⟩
      rw [h.logs_eq hid] at hns
      obtain rfl := Option.some.inj hns
      exact ⟨rec,⟨id,hid,hrec⟩,hf⟩
    · rintro ⟨rec,⟨id,hid,hrec⟩,hf⟩
      exact ⟨id,hid,_,h.logs_eq hid,rec,hrec,hf⟩
  have hsums : Sums ∅ ({ peers := S.peers } : Invariants).committed := sums_empty
  have hfold := foldlM_foldRecord 0 (S.peers.flatMap fun id => (w.nodes id).storage.committed) hsums
  rw [← hfacts] at hfold
  split at hfold
  · exact absurd h.consistent hfold
  · exact ⟨_,hfold.sums⟩

theorem leader_has (hid : id ∈ S.peers) {t : Nat}
    (hl : Invariants.leading (w.nodes id).observed.toNodeState = some t) {u : Nat} (hu : u ≤ t) {q : List Entry}
    (hq : H.CommittedBy u q) : q <+: H.log id := by
  obtain ⟨helected,hlog⟩ := h.of_leading hid hl
  rw [hlog]
  exact hq.prefix_lead h.inv.good.inv helected.mem_terms hu

theorem of_covered {idx : Nat} {m : LogMark} (hcov : .covered idx ∈ recordFacts (Checker.logs w.observed) S.peers)
    (htold : Told (recordFacts (Checker.logs w.observed) S.peers) idx m) :
    ∃ q, H.CommittedBy m.commitTerm q ∧ m.commitTerm ≠ 0 ∧ 0 < idx ∧ idx ≤ q.length := by
  have hne : m.commitTerm ≠ 0 := by
    obtain ⟨rec,⟨q,⟨u,hu,hp⟩,hpos,hle,_⟩,hf,hsub⟩ := h.of_recordFacts hcov
    obtain rfl : idx = rec.index := rec.index_of_mem hf
    refine (htold.lower rec.commitTerm (hsub (mem_commitTerm.mpr ⟨fun hz => ?_,rfl⟩))).1
    -- Nothing was committed in term 0.
    obtain rfl : u = 0 := by omega
    rw [h.inv.good.inv.lead_zero,List.take_nil,List.prefix_nil] at hp
    rw [hp,List.length_nil] at hle
    omega
  obtain ⟨rec,⟨q,hq,hpos,hle,_⟩,hf,_⟩ := h.of_recordFacts (htold.least hne)
  obtain rfl : idx = rec.index := rec.index_of_mem hf
  rw [(mem_commitTerm.mp hf).2] at hq
  exact ⟨q,hq,hne,hpos,hle⟩

private theorem passes (hid : id ∈ S.peers) {t : Nat}
    (hl : Invariants.leading (w.nodes id).observed.toNodeState = some t)
    {committed : Std.ExtTreeMap Nat LogMark} (hsums : Sums (recordFacts (Checker.logs w.observed) S.peers) committed) :
    Passes mem (Checker.logs w.observed) committed id t := by
  refine ⟨_,viewOf_mem _ id,fun idx m hm => ?_⟩
  obtain ⟨hcov,htold⟩ := hsums.told idx m hm
  unfold Invariants.scanIndex
  by_cases hlate : m.commitTerm ≠ 0 ∧ m.commitTerm > t
  · rw [if_pos hlate]
  rw [if_neg hlate]
  obtain ⟨q,hq,hne,hpos,hle⟩ := h.of_covered hcov htold
  have hpre := h.leader_has hid hl (by omega) hq
  have hterm : m.termKnown = true → m.term = termAt (H.log id) idx := by
    intro hk
    obtain ⟨_,q',hq',hle',heq⟩ := h.of_termFact ((htold.term m.term).mp ⟨hk,rfl⟩)
    rw [heq,termAt_of_isPrefix hpre hle]
    exact committed_termAt h.inv.good hq' hq hle' hle
  have hdig : m.dataKnown = true → ∀ e, (H.log id)[idx - 1]? = some e → m.digest = fnv64 e.data := by
    intro hk e he
    obtain ⟨_,q',e',hq',he',heq⟩ := h.of_digestFact ((htold.digest m.digest).mp ⟨hk,rfl⟩)
    have hagree := committed_agree h.inv.good hq' hq (List.getElem?_eq_some_iff.mp he').1 (i := idx - 1) (by omega)
    obtain ⟨zs,hzs⟩ := hpre
    rw [← hzs,List.getElem?_append_left (by omega),← hagree,he'] at he
    rw [heq,Option.some.inj he]
  have hview : memView (Checker.logs w.observed) id = {
      generation := (w.nodes id).storage.generation
      marks := marksOf id (w.nodes id).storage.storage.entries
      snapshotIndex := (w.nodes id).storage.storage.snapshot.metadata.index
      snapshotTerm := (w.nodes id).storage.storage.snapshot.metadata.term
      snapshotData := fnv64 (w.nodes id).storage.storage.snapshot.data } := by
    unfold memView
    rw [h.logs_eq hid]
    rfl
  obtain ⟨e,he⟩ : ∃ e, (H.log id)[idx - 1]? = some e :=
    ⟨_,List.getElem?_eq_getElem (by have := hpre.length_le; omega)⟩
  have hidx : e.index = idx := by
    have := (h.disk hid).repr.indexed _ e he
    omega
  have hterm_e : e.term = termAt (H.log id) idx := by
    obtain ⟨i,rfl⟩ : ∃ i, idx = i + 1 := ⟨idx - 1,by omega⟩
    exact (termAt_succ_of_getElem? he).symm
  cases hgot : (memView (Checker.logs w.observed) id).marks[idx]? with
  | some got =>
    obtain ⟨e',he',hidx',rfl⟩ := memView_marks.mp hgot
    obtain rfl : e' = e := by
      have hat := (h.of_holds hid he').2
      rw [hidx',he] at hat
      exact (Option.some.inj hat).symm
    refine if_neg ?_
    rintro (⟨hk,hne⟩ | ⟨hk,hne⟩)
    · exact hne (hterm_e.trans (hterm hk).symm)
    · exact hne (hdig hk e' he).symm
  | none =>
    have hsnap : (w.nodes id).storage.storage.snapshot.metadata.index ≥ idx := by
      by_contra hlt
      have hheld := h.holds hid (e := e) (by omega) (by rw [hidx]; exact he)
      rw [memView_marks.mpr ⟨e,hheld,hidx,rfl⟩] at hgot
      cases hgot
    rw [hview]
    rw [if_pos hsnap]
    refine if_neg ?_
    rintro ⟨heq,hk,hne⟩
    exact hne (by rw [hterm hk,(h.disk hid).repr.term,← heq]; rfl)

private theorem not_incomplete : ¬ Incomplete mem (Checker.logs w.observed) S.peers := by
  intro hinc
  obtain ⟨committed,hsums⟩ := h.exists_sums
  obtain ⟨id,hid,ns,t,hns,hl,hno⟩ := hinc committed hsums
  rw [h.logs_eq hid] at hns
  obtain rfl := Option.some.inj hns
  exact hno (h.passes hid hl hsums)

private theorem not_flawed : ¬ Flawed mem w.observed S.peers := by
  rintro (hd | hc | hi)
  · exact h.not_diverge hd
  · exact h.not_clash hc
  · exact h.not_incomplete hi

theorem elected_of_seen {x : Nat × Nat} (hx : x ∈ {x : Nat × Nat | w.checker.leaderByTerm[x.1]? = some x.2} ∪
    leaders w.observed S.peers) : H.Elected x.1 x.2 := by
  rcases hx with hx | ⟨id,hid,hx,ns,hns,hl⟩
  · exact h.led _ _ hx
  rw [h.observed_eq hid] at hns
  obtain rfl := Option.some.inj hns
  rw [hx]
  exact (h.of_leading hid hl).1

/-- The check finds nothing. -/
theorem check : Refines S k w.check c H := by
  have hprior : Prior mem w.observed {x : Nat × Nat | w.checker.leaderByTerm[x.1]? = some x.2} w.checker :=
    ⟨fun t id => Iff.rfl,h.coherent,fun _ => h.checked ▸ h.not_flawed⟩
  have hspec := hprior.check w.now (w.orders 0)
  unfold World.check
  rw [h.noErr]
  simp only [Option.isSome_none,Bool.false_eq_true,if_false]
  cases hrun : w.checker.check mem w.now w.observed (w.orders 0) with
  | error err =>
    rw [hrun,h.checked] at hspec
    rcases hspec with ⟨t,a,b,ha,hb,hne⟩ | hf
    · have hela : H.Elected t a := h.elected_of_seen ha
      have helb : H.Elected t b := h.elected_of_seen hb
      exact absurd (h.inv.good.inv.elected_unique hela helb) hne
    · exact absurd hf h.not_flawed
  | ok checker =>
    rw [hrun,h.checked] at hspec
    obtain ⟨hpeers,hvet⟩ := hspec
    have horders : Refines S k { w with orders := fun j => w.orders (j + 1) } c H := h.beside h.requests h.deliveries
    exact { horders with
      noErr := rfl
      drawn := fun hf => h.drawn ⟨hf.net,hf.think⟩
      checked := hpeers
      led := fun t id hid => h.elected_of_seen ((hvet.recorded t id).mp hid)
      coherent := hvet.coherent }

end Refines
end Parallax.Simulation
