import Parallax.Sim.Caching
import Parallax.Sim.Loop

/-! sim/invariants.go: the whole check that the simulator runs after each step. Election safety is checked every time; the
other checks are skipped while nothing that they look at seems to have changed. -/
namespace Parallax.Sim
open Std (ExtTreeMap)
open Loop (VirtualTime)

structure AppliedRec where
  index : Nat
  term : Nat
  digest : UInt64
  deriving DecidableEq, Repr

/-- A node with what it has applied. -/
structure AppliedNode (σ : Type) extends NodeState σ where
  applied : Nat := 0
  appliedLog : List AppliedRec := []

structure StructuralState where
  present : Bool := false
  applied : Nat := 0
  appliedEntries : Nat := 0
  storageGen : Nat := 0
  committedEvents : Nat := 0
  crashed : Bool := false
  leader : Bool := false
  leaderTerm : Nat := 0
  deriving DecidableEq, Repr

/-- `newInvariants` is `{ peers }`. -/
structure Checker extends Invariants where
  leaderByTerm : ExtTreeMap Nat Nat := ∅
  lastStructural : List StructuralState := []

structure AppliedMark where
  term : Nat
  digest : UInt64
  node : Nat
  deriving DecidableEq, Repr

inductive Violation
  | electionSafety (prev id term : Nat)
  | appliedPrefix (mark : AppliedMark) (id : Nat) (rec : AppliedRec)
  | structural (err : CheckErr)
  deriving DecidableEq, Repr

variable {σ : Type}

namespace Checker

def electPeer (nodes : Nat → Option (AppliedNode σ)) (byTerm : ExtTreeMap Nat Nat) (id : Nat) :
    Except Violation (ExtTreeMap Nat Nat) :=
  match (nodes id).bind fun ns => Invariants.leading ns.toNodeState with
  | none => .ok byTerm
  | some term =>
    match byTerm[term]? with
    | some prev => if prev ≠ id then .error (.electionSafety prev id term) else .ok (byTerm.insert term id)
    | none => .ok (byTerm.insert term id)

def checkElectionSafety (c : Checker) (nodes : Nat → Option (AppliedNode σ)) : Except Violation Checker :=
  (c.peers.foldlM (electPeer nodes) c.leaderByTerm).map fun leaderByTerm => { c with leaderByTerm }

def matchApplied (id : Nat) (seen : ExtTreeMap Nat AppliedMark) (rec : AppliedRec) :
    Except Violation (ExtTreeMap Nat AppliedMark) :=
  match seen[rec.index]? with
  | some m => if m.term ≠ rec.term ∨ m.digest ≠ rec.digest then .error (.appliedPrefix m id rec) else .ok seen
  | none => .ok (seen.insert rec.index ⟨rec.term,rec.digest,id⟩)

def checkAppliedPrefix (c : Checker) (nodes : Nat → Option (AppliedNode σ)) : Except Violation Unit :=
  (c.peers.foldlM (fun seen id => ((nodes id).elim [] AppliedNode.appliedLog).foldlM (matchApplied id) seen) ∅).map
    fun _ => ()

def structuralState (ns : AppliedNode σ) : StructuralState :=
  let leads : Option Nat := match ns.node with
    | none => none
    | some node => if ns.crashed = false ∧ node.state = StateType.leader then some node.term else none
  { present := true
    applied := ns.applied
    appliedEntries := ns.appliedLog.length
    storageGen := ns.storage.generation
    committedEvents := ns.storage.committed.length
    crashed := ns.crashed
    leader := leads.isSome
    leaderTerm := leads.getD 0 }

def current (c : Checker) (nodes : Nat → Option (AppliedNode σ)) : List StructuralState :=
  c.peers.map fun id => (nodes id).elim {} structuralState

def structuralChanged (c : Checker) (nodes : Nat → Option (AppliedNode σ)) : Bool × Checker :=
  if c.current nodes = c.lastStructural then (false,c) else (true,{ c with lastStructural := c.current nodes })

/-- The nodes as the checks of their logs see them. -/
def logs (nodes : Nat → Option (AppliedNode σ)) : Nat → Option (NodeState σ) :=
  fun id => (nodes id).map AppliedNode.toNodeState

/-- The checks of what nodes hold and have applied. -/
def checkStructure (S : LogStorage σ) (c : Checker) (nodes : Nat → Option (AppliedNode σ)) (it : Iteration) :
    Except Violation Checker := do
  c.checkAppliedPrefix nodes
  let iv ← (c.toInvariants.checkLogMatching S (logs nodes) it).mapError .structural
  let iv ← (iv.checkLeaderCompleteness S (logs nodes)).mapError .structural
  pure { c with toInvariants := iv }

/-- They are skipped if no node seems to have changed. -/
def checkChanged (S : LogStorage σ) (c : Checker) (nodes : Nat → Option (AppliedNode σ)) (it : Iteration) :
    Except Violation Checker :=
  match c.structuralChanged nodes with
  | (false,c) => .ok c
  | (true,c) => c.checkStructure S nodes it

/-- The checker after the call, or the violation and its time. -/
def check (S : LogStorage σ) (c : Checker) (now : VirtualTime) (nodes : Nat → Option (AppliedNode σ)) (it : Iteration) :
    Except (VirtualTime × Violation) Checker :=
  ((c.checkElectionSafety nodes).bind fun c => c.checkChanged S nodes it).mapError (now,·)

end Checker

/-- `x` is what the facts `G` come to, or fails because they contradict. -/
def Gathers {β ε ι : Type} (R : Set ι → β → Prop) (Bad : Set ι → Prop) (G : Set ι) : Except ε β → Prop
  | .ok b => R G b
  | .error _ => Bad G

theorem foldlM_gathers {α β ε ι : Type} {f : β → α → Except ε β} {R : Set ι → β → Prop} {Bad : Set ι → Prop}
    {tell : α → Set ι} (hbad : ∀ {F G}, Bad F → F ⊆ G → Bad G)
    (step : ∀ {F b} a, R F b → Gathers R Bad (F ∪ tell a) (f b a)) (l : List α) :
    ∀ {F : Set ι} {b : β}, R F b → Gathers R Bad (F ∪ {x | ∃ a ∈ l, x ∈ tell a}) (l.foldlM f b) := by
  induction l with
  | nil =>
    intro F b h
    change R (F ∪ _) b
    simpa using h
  | cons a l ih =>
    intro F b h
    have hset : F ∪ {x | ∃ a' ∈ a :: l, x ∈ tell a'} = F ∪ tell a ∪ {x | ∃ a' ∈ l, x ∈ tell a'} := by
      ext x
      simp [or_assoc]
    have hstep := step a h
    rw [List.foldlM_cons,hset]
    cases hfa : f b a with
    | error e =>
      rw [hfa] at hstep
      exact hbad hstep Set.subset_union_left
    | ok b' =>
      rw [hfa] at hstep
      exact ih hstep

/-- The terms led, with their leaders. -/
def leads (nodes : Nat → Option (AppliedNode σ)) (id : Nat) : Set (Nat × Nat) :=
  {x | x.2 = id ∧ ∃ ns, nodes id = some ns ∧ Invariants.leading ns.toNodeState = some x.1}

/-- Two leaders of one term. -/
def TwoLeaders (L : Set (Nat × Nat)) : Prop := ∃ t a b, (t,a) ∈ L ∧ (t,b) ∈ L ∧ a ≠ b

def Recorded (L : Set (Nat × Nat)) (byTerm : ExtTreeMap Nat Nat) : Prop :=
  ∀ t id : Nat, byTerm[t]? = some id ↔ (t,id) ∈ L

theorem Recorded.not_twoLeaders {L : Set (Nat × Nat)} {byTerm : ExtTreeMap Nat Nat} (h : Recorded L byTerm) :
    ¬ TwoLeaders L := by
  rintro ⟨t,a,b,ha,hb,hne⟩
  exact hne (Option.some.inj (((h t a).mpr ha).symm.trans ((h t b).mpr hb)))

private theorem electPeer_spec (nodes : Nat → Option (AppliedNode σ)) {L : Set (Nat × Nat)} {byTerm : ExtTreeMap Nat Nat}
    (id : Nat) (h : Recorded L byTerm) :
    Gathers Recorded TwoLeaders (L ∪ leads nodes id) (Checker.electPeer nodes byTerm id) := by
  unfold Checker.electPeer
  cases hlead : (nodes id).bind fun ns => Invariants.leading ns.toNodeState with
  | none =>
    have hnone : leads nodes id = ∅ := by
      ext x
      simp only [leads,Set.mem_ofPred_eq,Set.mem_empty_iff_false,iff_false]
      rintro ⟨_,ns,hns,hx⟩
      rw [hns,Option.bind_some,hx] at hlead
      cases hlead
    rw [hnone,Set.union_empty]
    exact h
  | some term =>
    obtain ⟨ns,hns,hterm⟩ := Option.bind_eq_some_iff.mp hlead
    have hmem : ∀ t a, (t,a) ∈ leads nodes id ↔ t = term ∧ a = id := by
      intro t a
      constructor
      · rintro ⟨rfl,ns',hns',hx⟩
        rw [← Option.some.inj (hns.symm.trans hns'),hterm] at hx
        exact ⟨(Option.some.inj hx).symm,rfl⟩
      · rintro ⟨rfl,rfl⟩
        exact ⟨rfl,ns,hns,hterm⟩
    have hok : (∀ prev, byTerm[term]? = some prev → prev = id) → Recorded (L ∪ leads nodes id) (byTerm.insert term id) := by
      intro hprev t a
      rw [ExtTreeMap.getElem?_insert,Set.mem_union,hmem,← h t a]
      by_cases ht : t = term
      · subst ht
        rw [if_pos Std.ReflCmp.compare_self,Option.some_inj]
        exact ⟨fun heq => .inr ⟨rfl,heq.symm⟩,fun hor => hor.elim (fun hp => (hprev a hp).symm) fun heq => heq.2.symm⟩
      · simp [ht,Ne.symm ht]
    simp only
    cases hprev : byTerm[term]? with
    | none => exact hok fun prev hp => by rw [hprev] at hp; cases hp
    | some prev =>
      simp only
      split_ifs with hne
      · exact ⟨term,prev,id,.inl ((h term prev).mp hprev),.inr ((hmem term id).mpr ⟨rfl,rfl⟩),hne⟩
      exact hok fun prev' hp => by
        rw [hprev] at hp
        rw [← Option.some.inj hp]
        exact Decidable.not_not.mp hne

theorem TwoLeaders.mono {L L' : Set (Nat × Nat)} (h : TwoLeaders L) (hsub : L ⊆ L') : TwoLeaders L' := by
  obtain ⟨t,a,b,ha,hb,hne⟩ := h
  exact ⟨t,a,b,hsub ha,hsub hb,hne⟩

/-- All leaders that can be told now. -/
def leaders (nodes : Nat → Option (AppliedNode σ)) (peers : List Nat) : Set (Nat × Nat) :=
  {x | ∃ id ∈ peers, x ∈ leads nodes id}

private theorem checkElectionSafety_spec {c : Checker} {L : Set (Nat × Nat)} (nodes : Nat → Option (AppliedNode σ))
    (h : Recorded L c.leaderByTerm) :
    Gathers (fun L' c' => ∃ byTerm, c' = { c with leaderByTerm := byTerm } ∧ Recorded L' byTerm) TwoLeaders
      (L ∪ leaders nodes c.peers) (c.checkElectionSafety nodes) := by
  have hfold := foldlM_gathers TwoLeaders.mono (fun id => electPeer_spec nodes id) c.peers h
  unfold Checker.checkElectionSafety
  cases hrun : c.peers.foldlM (Checker.electPeer nodes) c.leaderByTerm with
  | error err =>
    rw [hrun] at hfold
    exact hfold
  | ok byTerm =>
    rw [hrun] at hfold
    exact ⟨byTerm,rfl,hfold⟩

/-- Two records of one index that differ. -/
def Diverge (A : Set AppliedRec) : Prop := ∃ r ∈ A, ∃ r' ∈ A, r.index = r'.index ∧ r ≠ r'

theorem Diverge.mono {A A' : Set AppliedRec} (h : Diverge A) (hsub : A ⊆ A') : Diverge A' := by
  obtain ⟨r,hr,r',hr',hne⟩ := h
  exact ⟨r,hsub hr,r',hsub hr',hne⟩

/-- One mark stands for all the records of an index. -/
def Marked (A : Set AppliedRec) (seen : ExtTreeMap Nat AppliedMark) : Prop :=
  ∀ r : AppliedRec, r ∈ A ↔ ∃ m, seen[r.index]? = some m ∧ m.term = r.term ∧ m.digest = r.digest

theorem Marked.not_diverge {A : Set AppliedRec} {seen : ExtTreeMap Nat AppliedMark} (h : Marked A seen) : ¬ Diverge A := by
  rintro ⟨r,hr,r',hr',hidx,hne⟩
  obtain ⟨m,hm,ht,hd⟩ := (h r).mp hr
  obtain ⟨m',hm',ht',hd'⟩ := (h r').mp hr'
  rw [hidx] at hm
  obtain rfl := Option.some.inj (hm.symm.trans hm')
  cases r
  cases r'
  simp only at hidx ht hd ht' hd'
  rw [hidx,← ht,← hd,ht',hd'] at hne
  exact hne rfl

private theorem matchApplied_spec (id : Nat) {A : Set AppliedRec} {seen : ExtTreeMap Nat AppliedMark} (rec : AppliedRec)
    (h : Marked A seen) : Gathers Marked Diverge (A ∪ {rec}) (Checker.matchApplied id seen rec) := by
  unfold Checker.matchApplied
  cases hm : seen[rec.index]? with
  | none =>
    intro r
    rw [Set.mem_union,Set.mem_singleton_iff,ExtTreeMap.getElem?_insert,h r]
    by_cases hidx : r.index = rec.index
    · rw [if_pos (by rw [hidx]; exact Std.ReflCmp.compare_self),hidx,hm]
      cases r
      cases rec
      simp only at hidx
      simp [hidx,eq_comm]
    · simp only [Nat.compare_eq_eq,Ne.symm hidx,if_false]
      exact ⟨fun hor => hor.elim (fun hm => hm) fun heq => absurd (congrArg AppliedRec.index heq) hidx,.inl⟩
  | some m =>
    simp only
    split_ifs with hne
    · refine ⟨⟨rec.index,m.term,m.digest⟩,.inl ((h _).mpr ⟨m,hm,rfl,rfl⟩),rec,.inr rfl,rfl,fun heq => ?_⟩
      rw [← heq] at hne
      simp at hne
    have hin : rec ∈ A := (h rec).mpr ⟨m,hm,by simpa using hne⟩
    rw [Set.union_eq_self_of_subset_right (Set.singleton_subset_iff.mpr hin)]
    exact h

/-- All that the peers applied. -/
def appliedRecs (nodes : Nat → Option (AppliedNode σ)) (peers : List Nat) : Set AppliedRec :=
  {r | ∃ id ∈ peers, r ∈ (nodes id).elim [] AppliedNode.appliedLog}

private theorem checkAppliedPrefix_error_iff (c : Checker) (nodes : Nat → Option (AppliedNode σ)) :
    (∃ err, c.checkAppliedPrefix nodes = .error err) ↔ Diverge (appliedRecs nodes c.peers) := by
  have hpeer : ∀ {A : Set AppliedRec} {seen : ExtTreeMap Nat AppliedMark} (id : Nat), Marked A seen →
      Gathers Marked Diverge (A ∪ {r | r ∈ (nodes id).elim [] AppliedNode.appliedLog})
        (((nodes id).elim [] AppliedNode.appliedLog).foldlM (Checker.matchApplied id) seen) := by
    intro A seen id h
    have hlog := foldlM_gathers Diverge.mono (matchApplied_spec id) ((nodes id).elim [] AppliedNode.appliedLog) h
    simpa using hlog
  have hfold := foldlM_gathers Diverge.mono hpeer c.peers (F := ∅) (b := ∅) fun r => by simp
  rw [Set.empty_union] at hfold
  change Gathers Marked Diverge (appliedRecs nodes c.peers) _ at hfold
  unfold Checker.checkAppliedPrefix
  cases hrun : c.peers.foldlM (fun seen id =>
      ((nodes id).elim [] AppliedNode.appliedLog).foldlM (Checker.matchApplied id) seen) ∅ with
  | error err =>
    rw [hrun] at hfold
    exact ⟨fun _ => hfold,fun _ => ⟨err,rfl⟩⟩
  | ok seen =>
    rw [hrun] at hfold
    refine ⟨fun ⟨_,he⟩ => ?_,fun hd => absurd hd (Marked.not_diverge hfold)⟩
    cases he

section Whole
variable (S : LogStorage σ)

/-- What the checks find wrong with nodes of which nothing is remembered. -/
def Flawed (nodes : Nat → Option (AppliedNode σ)) (peers : List Nat) : Prop :=
  Diverge (appliedRecs nodes peers) ∨ Clash S (Checker.logs nodes) [] peers ∨ Incomplete S (Checker.logs nodes) peers

variable {S} {nodes nodes' : Nat → Option (AppliedNode σ)} {c : Checker}

private theorem checkStructure_spec (h : Coherent S (Checker.logs nodes) c.toInvariants) (it : Iteration) :
    match c.checkStructure S nodes it with
    | .error _ => Flawed S nodes c.peers
    | .ok c' => ¬ Flawed S nodes c.peers ∧ Coherent S (Checker.logs nodes) c'.toInvariants ∧
        ∃ iv, c' = { c with toInvariants := iv } ∧ iv.peers = c.peers := by
  have happ := checkAppliedPrefix_error_iff c nodes
  unfold Checker.checkStructure
  cases ha : c.checkAppliedPrefix nodes with
  | error err => exact .inl (happ.mp ⟨err,ha⟩)
  | ok u =>
    have hnodiv : ¬ Diverge (appliedRecs nodes c.peers) := by
      rw [← happ,ha]
      rintro ⟨_,he⟩
      cases he
    have hclash : (∃ err, c.toInvariants.checkLogMatching S (Checker.logs nodes) it = .error err) ↔
        Clash S (Checker.logs nodes) [] c.peers := checkLogMatching_error_iff h.cached
    cases hm : c.toInvariants.checkLogMatching S (Checker.logs nodes) it with
    | error err => exact .inr (.inl (hclash.mp ⟨err,hm⟩))
    | ok iv =>
      have hnoclash : ¬ Clash S (Checker.logs nodes) [] c.peers := by
        rw [← hclash,hm]
        rintro ⟨_,he⟩
        cases he
      obtain ⟨cache,rfl,hcached⟩ := checkLogMatching_ok h.cached hm
      obtain ⟨F,hF⟩ := h.folded
      have hcoh : Coherent S (Checker.logs nodes) { c.toInvariants with markCache := cache } :=
        ⟨hcached,⟨F,hF.sums,hF.cursor,hF.sound,hF.complete⟩,⟨h.sorted.nodup,h.sorted.length,h.sorted.sound⟩,h.remembered⟩
      have hspec := checkLeaderCompleteness_spec hcoh
      change match ((Invariants.checkLeaderCompleteness S { c.toInvariants with markCache := cache }
        (Checker.logs nodes)).mapError Violation.structural >>= fun iv => pure { c with toInvariants := iv }) with
        | .error _ => _ | .ok _ => _
      cases hl : Invariants.checkLeaderCompleteness S { c.toInvariants with markCache := cache } (Checker.logs nodes) with
      | error err =>
        rw [hl] at hspec
        exact .inr (.inr hspec)
      | ok iv =>
        rw [hl] at hspec
        obtain ⟨hcomplete,hcoh',hpeers⟩ := hspec
        exact ⟨fun hf => hf.elim hnodiv (·.elim hnoclash hcomplete),hcoh',iv,rfl,hpeers⟩

/-- What happens to the nodes between two checks: they call their storages and change their roles, and a node that
is crashed at both or at neither has only applied more. -/
def Turn (S : LogStorage σ) (nodes nodes' : Nat → Option (AppliedNode σ)) : Prop :=
  ∀ id, (nodes id = none ∧ nodes' id = none) ∨ ∃ ns ns', nodes id = some ns ∧ nodes' id = some ns' ∧
    (∃ calls : List StorageCall, ns'.storage = calls.foldl (TrackedStorage.call S) ns.storage) ∧
    (ns'.crashed = ns.crashed → ns.appliedLog <+: ns'.appliedLog)

theorem Turn.grow (h : Turn S nodes nodes') : NodesGrow (Checker.logs nodes) (Checker.logs nodes') := by
  intro id
  unfold Checker.logs
  rcases h id with ⟨hn,hn'⟩ | ⟨ns,ns',hn,hn',⟨calls,hcalls⟩,_⟩
  · exact .inl ⟨by rw [hn]; rfl,by rw [hn']; rfl⟩
  · have hg : Grows ns.storage ns'.storage := hcalls ▸ .calls S ns.storage calls
    exact .inr ⟨_,_,by rw [hn]; rfl,by rw [hn']; rfl,hg⟩

private theorem leading_structuralState (ns : AppliedNode σ) : Invariants.leading ns.toNodeState =
    if (Checker.structuralState ns).leader = true ∧ (Checker.structuralState ns).leaderTerm ≠ 0
      then some (Checker.structuralState ns).leaderTerm else none := by
  unfold Invariants.leading Checker.structuralState
  cases ns.node with
  | none => simp
  | some node =>
    by_cases hc : ns.crashed = true
    · simp [hc]
    by_cases hs : node.state = .leader
    · by_cases ht : node.term = 0 <;> simp [hc,hs,ht]
    · simp [hc,hs]

theorem Grows.facts_eq {t t' : TrackedStorage σ} (h : Grows t t') (hlen : t'.committed.length = t.committed.length) :
    facts t'.committed = facts t.committed := by
  obtain ⟨enrich,extra,hrec,hfacts⟩ := h.records
  rw [hrec,List.length_append,List.length_map] at hlen
  obtain rfl := List.length_eq_zero_iff.mp (Nat.add_eq_left.mp hlen)
  refine Set.Subset.antisymm ?_ h.facts_subset
  rw [hrec,List.append_nil]
  rintro f ⟨_,hmap,hf⟩
  obtain ⟨r,hr,rfl⟩ := List.mem_map.mp hmap
  rcases (hfacts r hr).2 hf with hf | hf
  · exact ⟨r,hr,hf⟩
  · rw [facts_nil] at hf
    cases hf

/-- Two states of a node that no check of logs and applied entries can tell apart. -/
structure Same (S : LogStorage σ) (nodes nodes' : Nat → Option (AppliedNode σ)) (id : Nat) : Prop where
  view : viewOf S (Checker.logs nodes') id = viewOf S (Checker.logs nodes) id
  applied : (nodes' id).elim [] AppliedNode.appliedLog = (nodes id).elim [] AppliedNode.appliedLog
  told : (nodes' id).elim ∅ (fun ns => facts ns.storage.committed) = (nodes id).elim ∅ fun ns => facts ns.storage.committed
  leading : ((nodes' id).bind fun ns => Invariants.leading ns.toNodeState) =
    (nodes id).bind fun ns => Invariants.leading ns.toNodeState

theorem Turn.same (h : Turn S nodes nodes') (hcur : c.current nodes' = c.current nodes) {id : Nat} (hid : id ∈ c.peers) :
    Same S nodes nodes' id := by
  have hstate := List.map_inj_left.mp hcur id hid
  rcases h id with ⟨hn,hn'⟩ | ⟨ns,ns',hn,hn',⟨calls,hcalls⟩,happ⟩
  · exact ⟨by simp [viewOf,Checker.logs,hn,hn'],by rw [hn,hn'],by rw [hn,hn'],by rw [hn,hn']⟩
  have hg : Grows ns.storage ns'.storage := hcalls ▸ .calls S ns.storage calls
  rw [hn,hn'] at hstate
  change Checker.structuralState ns' = Checker.structuralState ns at hstate
  have hlen : ns'.appliedLog.length = ns.appliedLog.length := congrArg StructuralState.appliedEntries hstate
  have hlog := (happ (congrArg StructuralState.crashed hstate)).eq_of_length hlen.symm
  refine ⟨?_,by rw [hn,hn']; exact hlog.symm,?_,?_⟩
  · exact viewOf_same (by rw [Checker.logs,hn]; rfl) (by rw [Checker.logs,hn']; rfl) hg
      (congrArg StructuralState.storageGen hstate)
  · rw [hn,hn']
    exact hg.facts_eq (congrArg StructuralState.committedEvents hstate)
  rw [hn,hn']
  simp only [Option.bind_some]
  rw [leading_structuralState,leading_structuralState,hstate]

private theorem recordFacts_logs (nodes : Nat → Option (AppliedNode σ)) (peers : List Nat) :
    recordFacts (Checker.logs nodes) peers =
    {f | ∃ id ∈ peers, f ∈ (nodes id).elim ∅ fun ns => facts ns.storage.committed} := by
  ext f
  simp only [recordFacts,Checker.logs,Set.mem_ofPred_eq]
  refine exists_congr fun id => and_congr_right fun _ => ?_
  cases nodes id <;> simp

private theorem failing_logs {committed : ExtTreeMap Nat LogMark} {id : Nat} : Failing S (Checker.logs nodes) committed id ↔
    ∃ term, ((nodes id).bind fun ns => Invariants.leading ns.toNodeState) = some term ∧
      ¬ Passes S (Checker.logs nodes) committed id term := by
  unfold Failing Checker.logs
  cases hn : nodes id <;> simp

theorem Flawed.congr {peers : List Nat} (h : ∀ id ∈ peers, Same S nodes nodes' id) (hf : Flawed S nodes' peers) :
    Flawed S nodes peers := by
  have hview : ∀ id ∈ peers, ∀ v, viewOf S (Checker.logs nodes) id = .ok v ↔ viewOf S (Checker.logs nodes') id = .ok v :=
    fun id hid v => by rw [(h id hid).view]
  have hpass : ∀ {committed id term}, id ∈ peers → Passes S (Checker.logs nodes) committed id term →
      Passes S (Checker.logs nodes') committed id term := by
    rintro committed id term hid ⟨v,hv,hall⟩
    exact ⟨v,(hview id hid v).mp hv,hall⟩
  rcases hf with hf | hf | hf
  · refine .inl (hf.mono ?_)
    rintro r ⟨id,hid,hr⟩
    exact ⟨id,hid,(h id hid).applied ▸ hr⟩
  · obtain ⟨pre,id,post,us,hsplit,hpre,hid⟩ := hf
    have hmem : ∀ {id'}, id' ∈ pre ∨ id' = id → id' ∈ peers := by
      rintro id' (hin | rfl) <;> rw [hsplit] <;> simp [*]
    refine .inr (.inl ⟨pre,id,post,us,hsplit,?_,fun v hv => hid v ((hview id (hmem (.inr rfl)) v).mp hv)⟩)
    exact ((List.forall₂_and_left _ _).mpr ⟨fun id' hin => hmem (.inl hin),hpre⟩).imp fun id' v hv =>
      (hview id' hv.1 v).mpr hv.2
  refine .inr (.inr fun committed hsums => ?_)
  have hfacts : recordFacts (Checker.logs nodes') peers = recordFacts (Checker.logs nodes) peers := by
    rw [recordFacts_logs,recordFacts_logs]
    ext f
    exact exists_congr fun id => and_congr_right fun hid => by rw [(h id hid).told]
  obtain ⟨id,hid,hfail⟩ := hf committed (hfacts ▸ hsums)
  obtain ⟨term,hterm,hno⟩ := failing_logs.mp hfail
  exact ⟨id,hid,failing_logs.mpr ⟨term,(h id hid).leading ▸ hterm,fun hp => hno (hpass hid hp)⟩⟩

/-- The checker before a check of `nodes`, with the leaders `L` of all checks so far. If the check is going to be
skipped, there is nothing to find. -/
structure Prior (S : LogStorage σ) (nodes : Nat → Option (AppliedNode σ)) (L : Set (Nat × Nat)) (c : Checker) : Prop where
  recorded : Recorded L c.leaderByTerm
  coherent : Coherent S (Checker.logs nodes) c.toInvariants
  skip : c.current nodes = c.lastStructural → ¬ Flawed S nodes c.peers

/-- The checker after a check of `nodes` that found nothing. -/
structure Vetted (S : LogStorage σ) (nodes : Nat → Option (AppliedNode σ)) (L : Set (Nat × Nat)) (c : Checker) : Prop where
  recorded : Recorded L c.leaderByTerm
  coherent : Coherent S (Checker.logs nodes) c.toInvariants
  last : c.lastStructural = c.current nodes
  sound : ¬ Flawed S nodes c.peers

private theorem not_flawed_nil (S : LogStorage σ) (nodes : Nat → Option (AppliedNode σ)) : ¬ Flawed S nodes [] := by
  rintro (⟨_,⟨_,hid,_⟩,_⟩ | ⟨pre,_,_,_,hsplit,_⟩ | hinc)
  · cases hid
  · cases pre <;> cases hsplit
  · have hnone : recordFacts (Checker.logs nodes) [] = ∅ := by simp [recordFacts]
    obtain ⟨_,hid,_⟩ := hinc ∅ (hnone ▸ sums_empty)
    cases hid

private theorem prior_new (S : LogStorage σ) (nodes : Nat → Option (AppliedNode σ)) (peers : List Nat) :
    Prior S nodes ∅ { peers } where
  recorded t id := by simp
  coherent := coherent_new peers
  skip hcur := by
    obtain rfl := List.map_eq_nil_iff.mp hcur
    exact not_flawed_nil S nodes

theorem Vetted.prior {L : Set (Nat × Nat)} (h : Vetted S nodes L c) (ht : Turn S nodes nodes') : Prior S nodes' L c where
  recorded := h.recorded
  coherent := h.coherent.grow ht.grow
  skip hcur hf := h.sound (hf.congr fun _ hid => ht.same (hcur.trans h.last) hid)

theorem Prior.checkChanged {L : Set (Nat × Nat)} (h : Prior S nodes L c) (it : Iteration) :
    match c.checkChanged S nodes it with
    | .error _ => Flawed S nodes c.peers
    | .ok c' => c'.peers = c.peers ∧ Vetted S nodes L c' := by
  unfold Checker.checkChanged Checker.structuralChanged
  by_cases hcur : c.current nodes = c.lastStructural
  · rw [if_pos hcur]
    exact ⟨rfl,h.recorded,h.coherent,hcur.symm,h.skip hcur⟩
  rw [if_neg hcur]
  have hspec := checkStructure_spec (c := { c with lastStructural := c.current nodes }) h.coherent it
  dsimp only
  cases hrun : Checker.checkStructure S { c with lastStructural := c.current nodes } nodes it with
  | error err =>
    rw [hrun] at hspec
    exact hspec
  | ok c' =>
    rw [hrun] at hspec
    obtain ⟨hsound,hcoh,iv,rfl,hpeers⟩ := hspec
    exact ⟨hpeers,h.recorded,hcoh,by rw [Checker.current,Checker.current,hpeers],hpeers ▸ hsound⟩

/-- One check. -/
theorem Prior.check {L : Set (Nat × Nat)} (h : Prior S nodes L c) (now : VirtualTime) (it : Iteration) :
    match c.check S now nodes it with
    | .error _ => TwoLeaders (L ∪ leaders nodes c.peers) ∨ Flawed S nodes c.peers
    | .ok c' => c'.peers = c.peers ∧ Vetted S nodes (L ∪ leaders nodes c.peers) c' := by
  have helect := checkElectionSafety_spec nodes h.recorded
  unfold Checker.check
  cases he : c.checkElectionSafety nodes with
  | error err =>
    rw [he] at helect
    exact .inl helect
  | ok c₁ =>
    rw [he] at helect
    obtain ⟨byTerm,rfl,hrec⟩ := helect
    have hprior : Prior S nodes (L ∪ leaders nodes c.peers) { c with leaderByTerm := byTerm } :=
      ⟨hrec,h.coherent,h.skip⟩
    have hspec := hprior.checkChanged it
    rw [Except.bind]
    cases hrun : Checker.checkChanged S { c with leaderByTerm := byTerm } nodes it with
    | error err =>
      rw [hrun] at hspec
      exact .inr hspec
    | ok c' =>
      rw [hrun] at hspec
      exact hspec

end Whole

/-- A call of the check. -/
structure Moment (σ : Type) where
  now : VirtualTime
  nodes : Nat → Option (AppliedNode σ)
  it : Iteration

/-- Checks one after another, up to the first violation. -/
def Checker.checks (S : LogStorage σ) (c : Checker) (ms : List (Moment σ)) : Except (VirtualTime × Violation) Checker :=
  ms.foldlM (fun c m => c.check S m.now m.nodes m.it) c

def seenLeaders (ms : List (Moment σ)) (peers : List Nat) : Set (Nat × Nat) := {x | ∃ m ∈ ms, x ∈ leaders m.nodes peers}

private theorem checks_error_iff {S : LogStorage σ} {ms : List (Moment σ)}
    (hturn : ms.IsChain fun m m' => Turn S m.nodes m'.nodes)
    {L : Set (Nat × Nat)} {c : Checker} (hrec : Recorded L c.leaderByTerm) (h : ∀ m ∈ ms.head?, Prior S m.nodes L c) :
    (∃ err, c.checks S ms = .error err) ↔
      TwoLeaders (L ∪ seenLeaders ms c.peers) ∨ ∃ m ∈ ms, Flawed S m.nodes c.peers := by
  induction ms generalizing L c with
  | nil =>
    have hnil : seenLeaders ([] : List (Moment σ)) c.peers = ∅ := by simp [seenLeaders]
    rw [hnil,Set.union_empty]
    refine ⟨fun ⟨_,he⟩ => ?_,fun hor => hor.elim (fun htwo => absurd htwo hrec.not_twoLeaders) fun ⟨_,hm,_⟩ => ?_⟩
    · cases he
    · cases hm
  | cons m ms ih =>
    have hcons : L ∪ seenLeaders (m :: ms) c.peers = L ∪ leaders m.nodes c.peers ∪ seenLeaders ms c.peers := by
      ext x
      simp [seenLeaders,or_assoc]
    have hspec := (h m rfl).check m.now m.it
    unfold Checker.checks
    rw [List.foldlM_cons,hcons]
    cases hrun : c.check S m.now m.nodes m.it with
    | error err =>
      rw [hrun] at hspec
      refine ⟨fun _ => ?_,fun _ => ⟨err,rfl⟩⟩
      exact hspec.imp (fun htwo => htwo.mono Set.subset_union_left) fun hf => ⟨m,List.mem_cons_self,hf⟩
    | ok c' =>
      rw [hrun] at hspec
      obtain ⟨hpeers,hvet⟩ := hspec
      have hnext : ∀ m' ∈ ms.head?, Prior S m'.nodes (L ∪ leaders m.nodes c.peers) c' := by
        intro m' hm'
        cases ms with
        | nil => cases hm'
        | cons m₁ ms =>
          obtain rfl := Option.some.inj hm'
          exact hvet.prior (List.isChain_cons_cons.mp hturn).1
      have hrest := ih hturn.of_cons hvet.recorded hnext
      rw [hpeers] at hrest
      refine hrest.trans (or_congr_right ?_)
      simp only [List.mem_cons,exists_eq_or_imp]
      exact ⟨.inr,fun hor => hor.resolve_left (hpeers ▸ hvet.sound)⟩

section Mem
variable {nodes : Nat → Option (NodeState Storage)} {F : Set Fact}

/-- The index is committed, and in a term up to this one if its records tell the term of a commitment. -/
def Owed (F : Set Fact) (term idx : Nat) : Prop :=
  .covered idx ∈ F ∧ ((∀ c, .commitTerm idx c ∉ F) ∨ ∃ c ≤ term, .commitTerm idx c ∈ F)

/-- The node holds at the index another term or digest than the one committed, or neither an entry nor a snapshot that
covers it. -/
def Lacks (nodes : Nat → Option (NodeState Storage)) (F : Set Fact) (id idx : Nat) : Prop :=
  (∃ e, Holds nodes id e ∧ e.index = idx ∧
    ((∃ t, .term idx t ∈ F ∧ e.term ≠ t) ∨ ∃ d, .digest idx d ∈ F ∧ fnv64 e.data ≠ d)) ∨
  (∀ e, Holds nodes id e → e.index ≠ idx) ∧ ∃ ns, nodes id = some ns ∧
    (ns.storage.storage.snapshot.metadata.index < idx ∨ ns.storage.storage.snapshot.metadata.index = idx ∧
      ∃ t, .term idx t ∈ F ∧ ns.storage.storage.snapshot.metadata.term ≠ t)

/-- A leader lacks something that is committed. -/
def Misses (nodes : Nat → Option (NodeState Storage)) (peers : List Nat) : Prop :=
  ∃ id ∈ peers, ∃ ns term idx, nodes id = some ns ∧ Invariants.leading ns = some term ∧
    Owed (recordFacts nodes peers) term idx ∧ Lacks nodes (recordFacts nodes peers) id idx

theorem Told.owed_iff {idx term : Nat} {m : LogMark} (h : Told F idx m) (hcov : .covered idx ∈ F) :
    Owed F term idx ↔ ¬ (m.commitTerm ≠ 0 ∧ m.commitTerm > term) := by
  constructor
  · rintro ⟨_,hnone | ⟨c,hc,hmem⟩⟩ ⟨hne,hgt⟩
    · exact hnone _ (h.least hne)
    · have := (h.lower c hmem).2
      omega
  intro hno
  refine ⟨hcov,?_⟩
  by_cases hz : m.commitTerm = 0
  · exact .inl fun c hc => (h.lower c hc).1 hz
  · exact .inr ⟨m.commitTerm,by omega,h.least hz⟩

theorem Told.other_term {idx t : Nat} {m : LogMark} (h : Told F idx m) :
    (∃ t', .term idx t' ∈ F ∧ t ≠ t') ↔ m.termKnown = true ∧ t ≠ m.term := by
  constructor
  · rintro ⟨t',hmem,hne⟩
    obtain ⟨hk,rfl⟩ := (h.term t').mpr hmem
    exact ⟨hk,hne⟩
  · rintro ⟨hk,hne⟩
    exact ⟨m.term,(h.term _).mp ⟨hk,rfl⟩,hne⟩

theorem Told.other_digest {idx : Nat} {d : UInt64} {m : LogMark} (h : Told F idx m) :
    (∃ d', .digest idx d' ∈ F ∧ d ≠ d') ↔ m.dataKnown = true ∧ d ≠ m.digest := by
  constructor
  · rintro ⟨d',hmem,hne⟩
    obtain ⟨hk,rfl⟩ := (h.digest d').mpr hmem
    exact ⟨hk,hne⟩
  · rintro ⟨hk,hne⟩
    exact ⟨m.digest,(h.digest _).mp ⟨hk,rfl⟩,hne⟩

private theorem scanIndex_mem {id idx term : Nat} {m : LogMark} {ns : NodeState Storage} (hns : nodes id = some ns)
    (h : Told F idx m) (hcov : .covered idx ∈ F) :
    Invariants.scanIndex id term (memView nodes id) idx m = .ok () ↔ ¬ (Owed F term idx ∧ Lacks nodes F id idx) := by
  have hview : (memView nodes id).snapshotIndex = ns.storage.storage.snapshot.metadata.index ∧
      (memView nodes id).snapshotTerm = ns.storage.storage.snapshot.metadata.term := by
    unfold memView
    rw [hns]
    exact ⟨rfl,rfl⟩
  unfold Invariants.scanIndex
  by_cases hlate : m.commitTerm ≠ 0 ∧ m.commitTerm > term
  · rw [if_pos hlate]
    exact iff_of_true rfl fun ho => ((h.owed_iff hcov).mp ho.1) hlate
  rw [if_neg hlate,and_iff_right ((h.owed_iff hcov).mpr hlate)]
  cases hmark : (memView nodes id).marks[idx]? with
  | some got =>
    obtain ⟨e,he,hidx,rfl⟩ := memView_marks.mp hmark
    have hlacks : Lacks nodes F id idx ↔ (m.termKnown = true ∧ e.term ≠ m.term) ∨
        (m.dataKnown = true ∧ fnv64 e.data ≠ m.digest) := by
      rw [← h.other_term,← h.other_digest]
      constructor
      · rintro (⟨e',he',hidx',hor⟩ | ⟨hnone,_⟩)
        · have hsame : entryMark id e = entryMark id e' :=
            Option.some.inj (hmark.symm.trans (memView_marks.mpr ⟨e',he',hidx',rfl⟩))
          have hterm : e.term = e'.term := congrArg LogMark.term hsame
          have hdata : fnv64 e.data = fnv64 e'.data := congrArg LogMark.digest hsame
          rw [hterm,hdata]
          exact hor
        · exact absurd hidx (hnone e he)
      · intro hor
        exact .inl ⟨e,he,hidx,hor⟩
    rw [hlacks]
    dsimp only
    split_ifs with hbad
    · exact iff_of_false (fun h => by cases h) (not_not.mpr hbad)
    · exact iff_of_true rfl hbad
  | none =>
    have hnone : ∀ e, Holds nodes id e → e.index ≠ idx := by
      intro e he hidx
      rw [memView_marks.mpr ⟨e,he,hidx,rfl⟩] at hmark
      cases hmark
    have hlacks : Lacks nodes F id idx ↔ (memView nodes id).snapshotIndex < idx ∨
        (memView nodes id).snapshotIndex = idx ∧ m.termKnown = true ∧ (memView nodes id).snapshotTerm ≠ m.term := by
      rw [← h.other_term,hview.1,hview.2]
      constructor
      · rintro (⟨e,he,hidx,_⟩ | ⟨_,ns',hns',hor⟩)
        · exact absurd hidx (hnone e he)
        · rwa [Option.some.inj (hns.symm.trans hns')]
      · intro hor
        exact .inr ⟨hnone,ns,hns,hor⟩
    rw [hlacks]
    dsimp only
    split_ifs with hge hbad
    · exact iff_of_false (fun h => by cases h) (not_not.mpr (.inr hbad))
    · exact iff_of_true rfl fun hor => hor.elim (fun hlt => by omega) hbad
    · exact iff_of_false (fun h => by cases h) (not_not.mpr (.inl (by omega)))

theorem Sums.failing_iff {committed : ExtTreeMap Nat LogMark} (h : Sums F committed) {id : Nat} :
    Failing mem nodes committed id ↔ ∃ ns term idx, nodes id = some ns ∧ Invariants.leading ns = some term ∧
      Owed F term idx ∧ Lacks nodes F id idx := by
  constructor
  · rintro ⟨ns,term,hns,hlead,hno⟩
    by_contra hcon
    refine hno ⟨_,viewOf_mem nodes id,fun idx m hm => ?_⟩
    obtain ⟨hcov,htold⟩ := h.told idx m hm
    exact (scanIndex_mem hns htold hcov).mpr fun hbad => hcon ⟨ns,term,idx,hns,hlead,hbad⟩
  rintro ⟨ns,term,idx,hns,hlead,howed,hlacks⟩
  refine ⟨ns,term,hns,hlead,fun ⟨v,hv,hall⟩ => ?_⟩
  obtain rfl := Except.ok.inj (hv.symm.trans (viewOf_mem nodes id))
  cases hm : committed[idx]? with
  | none => exact h.unknown idx hm _ howed.1 rfl
  | some m =>
    exact (scanIndex_mem hns (h.told idx m hm).2 howed.1).mp (hall idx m hm) ⟨howed,hlacks⟩

theorem Consistent.exists_sums {peers : List Nat} (h : Consistent (recordFacts nodes peers)) :
    ∃ committed, Sums (recordFacts nodes peers) committed := by
  have hnew : Coherent mem nodes { peers } := coherent_new peers
  obtain ⟨F,hF⟩ := hnew.folded
  have hfold := foldlM_foldPeer peers hF fun _ hid => hid
  cases hrun : peers.foldlM (Invariants.foldPeer nodes) ({ peers } : Invariants) with
  | error err =>
    rw [hrun] at hfold
    exact absurd h hfold
  | ok iv =>
    rw [hrun] at hfold
    obtain ⟨⟨G,hG⟩,hre,hfull,_⟩ := hfold
    have hpeers : iv.peers = peers := by
      obtain ⟨_,_,_,rfl⟩ := hre.only
      rfl
    have hsums := hG.sums_all (hpeers ▸ hfull)
    rw [hpeers] at hsums
    exact ⟨_,hsums⟩

private theorem incomplete_mem_iff {peers : List Nat} :
    Incomplete mem nodes peers ↔ ¬ Consistent (recordFacts nodes peers) ∨ Misses nodes peers := by
  constructor
  · intro hinc
    by_cases hcon : Consistent (recordFacts nodes peers)
    · obtain ⟨committed,hsums⟩ := hcon.exists_sums
      obtain ⟨id,hid,hfail⟩ := hinc committed hsums
      exact .inr ⟨id,hid,hsums.failing_iff.mp hfail⟩
    · exact .inl hcon
  rintro (hcon | ⟨id,hid,hmiss⟩) committed hsums
  · exact absurd hsums.consistent hcon
  · exact ⟨id,hid,hsums.failing_iff.mpr hmiss⟩

end Mem

/-- What is wrong with the nodes: applied entries that diverge, snapshots or logs in conflict, commit records that
contradict each other, or a leader that lacks something committed. -/
def Faulty (nodes : Nat → Option (AppliedNode Storage)) (peers : List Nat) : Prop :=
  Diverge (appliedRecs nodes peers) ∨ SnapshotConflict (Checker.logs nodes) peers ∨
    OpenConflict (Checker.logs nodes) peers ∨ ¬ Consistent (recordFacts (Checker.logs nodes) peers) ∨
    Misses (Checker.logs nodes) peers

private theorem flawed_mem_iff {nodes : Nat → Option (AppliedNode Storage)} {peers : List Nat} :
    Flawed mem nodes peers ↔ Faulty nodes peers := by
  unfold Flawed Faulty
  rw [clash_mem_iff,incomplete_mem_iff,or_assoc]

/-- A run of checks that a new checker makes, with all its caches and skips: it reports a violation just if two nodes
were seen leading one term, at whatever times, or there is something wrong with the nodes at one of the checks. -/
theorem checks_exact (peers : List Nat) (ms : List (Moment Storage))
    (hturn : ms.IsChain fun m m' => Turn mem m.nodes m'.nodes) :
    (∃ err, ({ peers } : Checker).checks mem ms = .error err) ↔
      TwoLeaders (seenLeaders ms peers) ∨ ∃ m ∈ ms, Faulty m.nodes peers := by
  rw [checks_error_iff hturn (L := ∅) (fun t id => by simp) fun m _ => prior_new mem m.nodes peers,Set.empty_union]
  simp only [flawed_mem_iff]

/-- Node `id` of two leads term 1. -/
def leadBy (id : Nat) : Moment Storage where
  now := 0
  nodes id' := some { storage := { storage := {} }, node := some ⟨if id' = id then .leader else .follower,1⟩ }
  it := .ascending

/-- The second node is not reported until it leads. -/
theorem checks_exact_deposed : ∃ err, ({ peers := [1,2] } : Checker).checks mem [leadBy 1,leadBy 1,leadBy 2] = .error err := by
  have hturn : ∀ a b, Turn mem (leadBy a).nodes (leadBy b).nodes := fun a b id =>
    .inr ⟨_,_,rfl,rfl,⟨[],rfl⟩,fun _ => List.prefix_rfl⟩
  have hchain : [leadBy 1,leadBy 1,leadBy 2].IsChain fun m m' => Turn mem m.nodes m'.nodes :=
    .cons_cons (hturn 1 1) (.cons_cons (hturn 1 2) (.singleton _))
  have hlead : ∀ id ∈ [1,2], (1,id) ∈ leaders (leadBy id).nodes [1,2] := fun id hid =>
    ⟨id,hid,rfl,_,rfl,by simp [Invariants.leading]⟩
  refine (checks_exact [1,2] _ hchain).mpr (.inl ⟨1,1,2,⟨leadBy 1,by simp,hlead 1 (by simp)⟩,?_,by decide⟩)
  exact ⟨leadBy 2,by simp,hlead 2 (by simp)⟩

end Parallax.Sim
