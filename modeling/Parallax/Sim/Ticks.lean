import Parallax.Cluster.Play
import Parallax.Sim.Loop

/-! Tick timers. A tick finds out only when it fires that its node is down, so a node that is restarted before that has
two timers. -/
namespace Parallax.Loop
variable {σ π : Type} {H : Harness σ π} {s s' : Simulator σ π} {id : Nat}

/-- When the clock of a node has to advance next. -/
def Timer.due (t : Timer) (tickEvery : VirtualTime) : VirtualTime := t.born + (t.ticks + 1) * tickEvery

theorem Timer.due_succ (t : Timer) (tickEvery : VirtualTime) :
    due { t with ticks := t.ticks + 1 } tickEvery = t.due tickEvery + tickEvery := by
  simp only [due,Int.natCast_add,Int.natCast_one]
  rw [Int.add_mul (↑t.ticks + 1) 1,Int.one_mul,Int.add_assoc]

theorem Timer.due_new (now tickEvery : VirtualTime) : due { born := now } tickEvery = now + tickEvery := by simp [due]

namespace Simulator

/-- The pending ticks of a node. -/
def ticks (s : Simulator σ π) (id : Nat) : List (Event π) := s.queue.filter (Event.isTick id)

/-- One tick is pending, for when the clock has to advance next. -/
def Paced (s : Simulator σ π) (id : Nat) (t : Timer) : Prop :=
  ∃ e, s.ticks id = [e] ∧ e.time = t.due s.cfg.tickEvery

/-- Every node that is up has one timer. -/
def Single (s : Simulator σ π) : Prop := ∀ id t, (s.nodes id).up? = some t → s.Paced id t

/-- The call of `Restart` leaves the node with one timer: where it takes effect, the tick from before the crash has
fired. (Where `startNode` fails with the node built, no tick is armed.) -/
def Timely (H : Harness σ π) (s : Simulator σ π) (id : Nat) : Prop :=
  id ∈ s.peers → (s.nodes id).crashed = true →
    match H.startNode s.sight id s.rest with
    | .ok _ => s.ticks id = []
    | .failed _ true => ∃ e, s.ticks id = [e] ∧ e.time = s.now + s.cfg.tickEvery
    | .failed _ false => True

/-- Nodes, time and pending ticks are the same. -/
structure Alike (s s' : Simulator σ π) : Prop where
  cfg : s'.cfg = s.cfg
  now : s'.now = s.now
  peers : s'.peers = s.peers
  nodes : s'.nodes = s.nodes
  ticks : ∀ id, s'.ticks id = s.ticks id

theorem Alike.trans {s'' : Simulator σ π} (h : Alike s s') (h' : Alike s' s'') : Alike s s'' :=
  ⟨h'.cfg.trans h.cfg,h'.now.trans h.now,h'.peers.trans h.peers,h'.nodes.trans h.nodes,
    fun id => (h'.ticks id).trans (h.ticks id)⟩

theorem call_alike (s : Simulator σ π) (c : Call π) : Alike s (s.call c) := by
  cases c with
  | schedule after p => exact ⟨rfl,rfl,rfl,rfl,fun id => by simp [call,schedule,ticks,Event.isTick]⟩
  | recordControl => exact ⟨rfl,rfl,rfl,rfl,fun id => rfl⟩

theorem perform_alike (s : Simulator σ π) (x : σ × List (Call π)) : Alike s (s.perform x) := by
  have h : ∀ (cs : List (Call π)) (t : Simulator σ π), Alike t (cs.foldl call t) := by
    intro cs
    induction cs with
    | nil => exact fun t => ⟨rfl,rfl,rfl,rfl,fun _ => rfl⟩
    | cons c cs ih => exact fun t => (t.call_alike c).trans (ih (t.call c))
  have hrest : Alike s { s with rest := x.1 } := ⟨rfl,rfl,rfl,rfl,fun _ => rfl⟩
  exact hrest.trans (h x.2 _)

private theorem ticks_scheduleTick (s : Simulator σ π) (id id' : Nat) :
    (s.scheduleTick id).ticks id' =
      if id = id' then ⟨s.now + s.cfg.tickEvery,s.seq + 1,.tick id⟩ :: s.ticks id' else s.ticks id' := by
  simp only [scheduleTick,schedule,ticks,List.filter_cons,Event.isTick,decide_eq_true_eq]

/-- A node that is up has one timer, another at most one. -/
def Kept (s : Simulator σ π) (id : Nat) : Prop :=
  match (s.nodes id).up? with
  | none => (s.ticks id).length ≤ 1
  | some t => s.Paced id t

theorem Kept.of_up {t : Timer} (h : s.Kept id) (hu : (s.nodes id).up? = some t) : s.Paced id t := by
  rw [Kept,hu] at h
  exact h

theorem Kept.idle (hu : (s.nodes id).up? = none) (hle : (s.ticks id).length ≤ 1) : s.Kept id := by
  rw [Kept,hu]
  exact hle

theorem Kept.of_down (h : s.Kept id) (hu : (s.nodes id).up? = none) : (s.ticks id).length ≤ 1 := by
  rw [Kept,hu] at h
  exact h

theorem Kept.length_le (h : s.Kept id) : (s.ticks id).length ≤ 1 := by
  cases hu : (s.nodes id).up? with
  | none => exact h.of_down hu
  | some t =>
    obtain ⟨e,he,_⟩ := h.of_up hu
    rw [he]
    exact Nat.le_refl 1

theorem Kept.same (h : s.Kept id) (hc : s'.cfg = s.cfg) (hn : s'.nodes id = s.nodes id) (ht : s'.ticks id = s.ticks id) :
    s'.Kept id := by
  unfold Kept Paced at *
  rw [hn,ht,hc]
  exact h

theorem Kept.alike (h : s.Kept id) (ha : Alike s s') : s'.Kept id :=
  h.same ha.cfg (congrFun ha.nodes id) (ha.ticks id)

private theorem setNode_nodes_ne (s : Simulator σ π) {id id' : Nat} (h : id ≠ id') (ns : NodeState) :
    (s.setNode id ns).nodes id' = s.nodes id' := Function.update_of_ne h.symm _ _

theorem Kept.armed {t : Timer} (hu : (s.nodes id).up? = some t) (hnil : s.ticks id = [])
    (ht : s.now + s.cfg.tickEvery = t.due s.cfg.tickEvery) : (s.scheduleTick id).Kept id := by
  unfold Kept
  rw [show (s.scheduleTick id).nodes = s.nodes from rfl,hu]
  exact ⟨_,by rw [ticks_scheduleTick,if_pos rfl,hnil],ht⟩

theorem Kept.armed_ne {id' : Nat} (h : s.Kept id') (hne : id ≠ id') : (s.scheduleTick id).Kept id' :=
  h.same rfl rfl (by rw [ticks_scheduleTick,if_neg hne])

private theorem ticks_popped_of_not {e : Event π} {q : List (Event π)} (hpop : pop s.queue = some (e,q))
    (he : e.isTick id = false) : ({ s with now := e.time, queue := q } : Simulator σ π).ticks id = s.ticks id := by
  obtain ⟨xs,ys,hq,rfl⟩ := pop_split hpop
  simp [ticks,hq,he]

private theorem ticks_popped {e : Event π} {q : List (Event π)} (hpop : pop s.queue = some (e,q)) (he : e.isTick id = true)
    (hle : (s.ticks id).length ≤ 1) :
    s.ticks id = [e] ∧ ({ s with now := e.time, queue := q } : Simulator σ π).ticks id = [] := by
  obtain ⟨xs,ys,hq,rfl⟩ := pop_split hpop
  have hsplit : s.ticks id = xs.filter (Event.isTick id) ++ e :: ys.filter (Event.isTick id) := by simp [ticks,hq,he]
  rw [hsplit,List.length_append,List.length_cons] at hle
  have hxs : xs.filter (Event.isTick id) = [] := List.eq_nil_of_length_eq_zero (by omega)
  have hys : ys.filter (Event.isTick id) = [] := List.eq_nil_of_length_eq_zero (by omega)
  rw [hsplit,hxs,hys]
  refine ⟨rfl,?_⟩
  simp only [ticks,List.filter_append,hxs,hys,List.append_nil]

private theorem isTick_tick {e : Event π} (he : e.action = .tick id) (id' : Nat) : e.isTick id' = decide (id = id') := by
  simp only [Event.isTick,he]

theorem fireTick_kept {e : Event π} {q : List (Event π)} (hpop : pop s.queue = some (e,q)) (he : e.action = .tick id)
    (h : ∀ id, s.Kept id) (id' : Nat) : ({ s with now := e.time, queue := q }.fireTick H id).Kept id' := by
  have htick : e.isTick id = true := by simp [isTick_tick he]
  have hself := ticks_popped hpop htick (h id).length_le
  have hother : id ≠ id' → ({ s with now := e.time, queue := q } : Simulator σ π).ticks id' = s.ticks id' := fun hne =>
    ticks_popped_of_not hpop (by simp [isTick_tick he,hne])
  cases hu : (s.nodes id).up? with
  | none =>
    simp only [fireTick,hu]
    by_cases hid : id = id'
    · subst hid
      simp [Kept,hu,hself.2]
    · exact (h id').same rfl rfl (hother hid)
  | some t =>
    simp only [fireTick,hu]
    have ha := perform_alike (({ s with now := e.time, queue := q } : Simulator σ π).setNode id
      { node := some { t with ticks := t.ticks + 1 } }) (H.tick (sight { s with now := e.time, queue := q }) id s.rest)
    by_cases hid : id = id'
    · subst hid
      obtain ⟨e',he',htime⟩ := (h id).of_up hu
      rw [hself.1] at he'
      obtain rfl := (List.cons.inj he').1
      refine .armed (t := { t with ticks := t.ticks + 1 }) ?_ ((ha.ticks id).trans hself.2) ?_
      · rw [ha.nodes]
        simp [setNode,NodeState.up?]
      · rw [ha.now,ha.cfg,Timer.due_succ]
        exact congrArg (· + s.cfg.tickEvery) htime
    have hk : (({ s with now := e.time, queue := q } : Simulator σ π).setNode id
        { node := some { t with ticks := t.ticks + 1 } }).Kept id' :=
      (h id').same rfl (setNode_nodes_ne _ hid _) (hother hid)
    exact (hk.alike ha).armed_ne hid

private theorem step_kept (h : ∀ id, s.Kept id) (id : Nat) : (s.step H).Kept id := by
  unfold step
  split
  · exact h id
  rename_i e q hpop
  refine Kept.same (s := { s with now := e.time, queue := q }.fire H e.action) ?_ rfl rfl rfl
  cases he : e.action with
  | tick id' => exact fireTick_kept hpop he h id
  | other p =>
    have hk : ({ s with now := e.time, queue := q } : Simulator σ π).Kept id :=
      (h id).same rfl rfl (ticks_popped_of_not hpop (by simp [Event.isTick,he]))
    exact hk.alike (perform_alike _ _)

private theorem crash_kept (h : ∀ id, s.Kept id) (id id' : Nat) : (s.crash H id).Kept id' := by
  unfold crash
  split
  · exact h id'
  by_cases hid : id = id'
  · subst hid
    exact .idle (by simp [recordControl,setNode,NodeState.up?]) (h id).length_le
  · exact (h id').same rfl (setNode_nodes_ne _ hid _) rfl

private theorem build_up (s : Simulator σ π) (id : Nat) : ((s.build id).nodes id).up? = some { born := s.now } := by
  simp [build,setNode,NodeState.up?]

theorem restart_timely (h : ∀ id, s.Kept id) (id : Nat) :
    ((s.restart H id).Single → s.Timely H id) ∧ (s.Timely H id → ∀ id', (s.restart H id).Kept id') := by
  unfold restart
  split
  · rename_i hno
    refine ⟨fun _ hmem hcr => ?_,fun _ => h⟩
    rcases hno with hno | hno
    · exact absurd hmem hno
    · exact absurd hcr hno
  rename_i hyes
  push Not at hyes
  unfold Timely
  cases hst : H.startNode s.sight id s.rest with
  | ok rest =>
    have ha := fun x => perform_alike (({ s with rest }.build id).recordControl.scheduleTick id) x
    have hup : (({ s with rest }.build id).recordControl.nodes id).up? = some { born := s.now } :=
      build_up { s with rest } id
    refine ⟨fun hs _ _ => ?_,fun ht id' => .alike ?_ (ha _)⟩
    · obtain ⟨e,he,_⟩ := hs id { born := s.now } (by rw [(ha _).nodes]; exact hup)
      rw [(ha _).ticks,ticks_scheduleTick,if_pos rfl] at he
      exact (List.cons.inj he).2
    by_cases hid : id = id'
    · subst hid
      exact .armed hup (ht hyes.1 hyes.2) (Timer.due_new _ _).symm
    · exact .armed_ne ((h id').same rfl (setNode_nodes_ne { s with rest } hid _) rfl) hid
  | failed rest built =>
    cases built with
    | false =>
      simp only [Bool.false_eq_true,if_false]
      refine ⟨fun _ _ _ => trivial,fun _ id' => ?_⟩
      by_cases hid : id = id'
      · subst hid
        exact .idle (by simp [setNode,NodeState.up?]) (h id).length_le
      · exact (h id').same rfl (setNode_nodes_ne { s with rest } hid _) rfl
    | true =>
      have hup := build_up { s with rest } id
      simp only [if_true]
      refine ⟨fun hs _ _ => ?_,fun ht id' => ?_⟩
      · obtain ⟨e,he,htime⟩ := hs id _ hup
        exact ⟨e,he,htime.trans (Timer.due_new _ _)⟩
      by_cases hid : id = id'
      · subst hid
        obtain ⟨e,he,htime⟩ := ht hyes.1 hyes.2
        rw [Kept,hup]
        exact ⟨e,he,htime.trans (Timer.due_new _ _).symm⟩
      · exact (h id').same rfl (setNode_nodes_ne { s with rest } hid _) rfl

private theorem startAll_ok {ids : List Nat} : ∀ {s t : Simulator σ π}, startAll H s ids = .ok t →
    t.cfg = s.cfg ∧ t.now = s.now ∧ t.peers = s.peers ∧ t.queue = s.queue ∧
      ∀ id, (t.nodes id).up? = if id ∈ ids then some { born := s.now } else (s.nodes id).up? := by
  induction ids with
  | nil =>
    intro s t h
    obtain rfl := Except.ok.inj h
    exact ⟨rfl,rfl,rfl,rfl,fun id => by simp⟩
  | cons x ids ih =>
    intro s t h
    rw [startAll] at h
    split at h
    · cases h
    rename_i rest _
    obtain ⟨hc,hn,hp,hq,hup⟩ := ih h
    refine ⟨hc,hn,hp,hq,fun id => ?_⟩
    rw [hup]
    by_cases hid : id = x
    · subst hid
      by_cases hmem : id ∈ ids
      · simp [hmem,build,setNode]
      · rw [if_neg hmem,build_up]
        simp
    have hne : x ≠ id := fun h => hid h.symm
    simp only [List.mem_cons,hid,false_or]
    rw [build,setNode_nodes_ne _ hne]
    rfl

theorem scheduleTicks_ticks {ids : List Nat} (hd : ids.Nodup) : ∀ (s : Simulator σ π),
    (ids.foldl scheduleTick s).cfg = s.cfg ∧ (ids.foldl scheduleTick s).nodes = s.nodes ∧
      ∀ id, (id ∈ ids → ∃ e, (ids.foldl scheduleTick s).ticks id = e :: s.ticks id ∧ e.time = s.now + s.cfg.tickEvery) ∧
        (id ∉ ids → (ids.foldl scheduleTick s).ticks id = s.ticks id) := by
  induction ids with
  | nil => exact fun s => ⟨rfl,rfl,fun id => ⟨fun h => (by cases h),fun _ => rfl⟩⟩
  | cons x ids ih =>
    intro s
    obtain ⟨hx,hd⟩ := List.nodup_cons.mp hd
    obtain ⟨hc,hn,ht⟩ := ih hd (s.scheduleTick x)
    refine ⟨hc,hn,fun id => ?_⟩
    obtain ⟨hin,hout⟩ := ht id
    rw [ticks_scheduleTick] at hin hout
    by_cases heq : x = id
    · subst heq
      rw [if_pos rfl] at hout
      exact ⟨fun _ => ⟨_,hout hx,rfl⟩,fun h => absurd List.mem_cons_self h⟩
    · rw [if_neg heq] at hin hout
      exact ⟨fun h => hin (List.mem_of_ne_of_mem (fun h => heq h.symm) h),fun h => hout fun h' => h (List.mem_cons_of_mem _ h')⟩

private theorem new_kept {cfg : Config} {rest : σ} (h : new cfg H rest = .ok s) (id : Nat) : s.Kept id := by
  unfold new at h
  split at h
  · cases h
  simp only at h
  split at h
  · cases h
  rename_i s₁ hstart
  obtain rfl := Except.ok.inj h
  obtain ⟨hc,hn,_,hq,hup⟩ := startAll_ok hstart
  have hd : ((List.range cfg.nodes.toNat).map (· + 1)).Nodup :=
    List.Nodup.map (fun _ _ h => Nat.succ.inj h) List.nodup_range
  obtain ⟨hc',hn',ht⟩ := scheduleTicks_ticks hd s₁
  refine Kept.alike ?_ (perform_alike _ _)
  have hnil : s₁.ticks id = [] := by simp [ticks,hq]
  obtain ⟨hin,hout⟩ := ht id
  rw [hnil] at hin hout
  rw [Kept,hn',hup]
  split
  · rename_i hdown
    split at hdown
    · cases hdown
    rename_i hmem
    rw [hout hmem]
    exact Nat.zero_le 1
  rename_i t hu
  split at hu
  · rename_i hmem
    obtain ⟨e,he,htime⟩ := hin hmem
    obtain rfl := Option.some.inj hu
    refine ⟨e,he,?_⟩
    rw [htime,hc',hn,Timer.due_new]
  · cases hu

private theorem op_kept (h : ∀ id, s.Kept id) {op : Op} (ht : ∀ id, op = .restart id → s.Timely H id) (id : Nat) :
    (s.op H op).Kept id := by
  cases op with
  | step => exact step_kept h id
  | crash id' => exact crash_kept h id' id
  | restart id' => exact (restart_timely h id').2 (ht id' rfl) id

/-- Every restart of the run finds the node's old tick gone. -/
def TimelyRun (H : Harness σ π) (s : Simulator σ π) (ops : List Op) : Prop :=
  ∀ ops' id, ops' ++ [.restart id] <+: ops → (s.run H ops').Timely H id

private theorem timelyRun_nil : s.TimelyRun H [] := fun _ _ hpre => absurd hpre.length_le (by simp)

private theorem timelyRun_cons {op : Op} {ops : List Op} :
    s.TimelyRun H (op :: ops) ↔ (∀ id, op = .restart id → s.Timely H id) ∧ (s.op H op).TimelyRun H ops := by
  refine ⟨fun h => ⟨fun id hop => h [] id (by simp [hop]),fun ops' id hpre => h (op :: ops') id ?_⟩,
    fun h ops' id hpre => ?_⟩
  · exact (List.cons_prefix_cons).mpr ⟨rfl,hpre⟩
  cases ops' with
  | nil => exact h.1 id (List.cons_prefix_cons.mp hpre).1.symm
  | cons op' ops' =>
    obtain ⟨rfl,htail⟩ := List.cons_prefix_cons.mp hpre
    exact h.2 ops' id htail

private theorem run_kept {ops : List Op} : ∀ {s : Simulator σ π}, (∀ id, s.Kept id) → s.TimelyRun H ops → ∀ id,
    (s.run H ops).Kept id := by
  induction ops with
  | nil => exact fun h _ => h
  | cons op ops ih =>
    intro s h ht
    obtain ⟨hop,ht⟩ := timelyRun_cons.mp ht
    exact ih (op_kept h hop) ht

theorem timelyRun_of_single {ops : List Op} : ∀ {s : Simulator σ π}, (∀ id, s.Kept id) →
    (∀ ops', ops' <+: ops → (s.run H ops').Single) → s.TimelyRun H ops := by
  induction ops with
  | nil => exact fun _ _ => timelyRun_nil
  | cons op ops ih =>
    intro s h hs
    have hop : ∀ id, op = .restart id → s.Timely H id := by
      rintro id rfl
      exact (restart_timely h id).1 (hs [.restart id] (by simp))
    exact timelyRun_cons.mpr ⟨hop,ih (op_kept h hop) fun ops' hpre => hs (op :: ops') (List.cons_prefix_cons.mpr ⟨rfl,hpre⟩)⟩

/-- One tick chain per live node: along a run of a simulator every node that is up has exactly one pending tick, for the
time its clock has to advance next, if and only if no node is restarted while the tick from before its crash is still
queued. -/
theorem ticks_single_iff {cfg : Config} {rest : σ} {s₀ : Simulator σ π} (hnew : new cfg H rest = .ok s₀)
    (ops : List Op) : (∀ ops', ops' <+: ops → (s₀.run H ops').Single) ↔ s₀.TimelyRun H ops := by
  refine ⟨timelyRun_of_single (new_kept hnew),fun ht ops' hpre id t hu => ?_⟩
  exact (run_kept (new_kept hnew) (fun ops'' id' h => ht ops'' id' (h.trans hpre)) id).of_up hu

end Simulator

def Started.isOk : Started σ → Bool
  | .ok _ => true
  | .failed _ _ => false

namespace Simulator

theorem Timely.of_gone (hgone : (s.ticks id).isEmpty = true) (hok : (H.startNode s.sight id s.rest).isOk = true) :
    s.Timely H id := by
  intro _ _
  cases hst : H.startNode s.sight id s.rest with
  | ok rest => exact List.isEmpty_iff.mp hgone
  | failed rest built =>
    rw [hst] at hok
    cases hok

def pulse : Config := { nodes := 3, electionTicks := 2, heartbeatTicks := 1, tickEvery := 10 }

abbrev trioCore := core (Cluster.trio true) 1 fun _ => 0

/-- Node 1 is restarted after its tick has fired. -/
def revived : List Op := [.crash 1,.step,.restart 1,.step,.step,.step]

theorem ticks_single_revived : ∃ s₀, new pulse trioCore (fun _ => {}) = .ok s₀ ∧
    ((s₀.run trioCore revived).nodes 1).up? = some { born := 10, ticks := 1 } ∧
    ∀ ops', ops' <+: revived → (s₀.run trioCore ops').Single := by
  have h : (new pulse trioCore (fun _ => {})).toOption.any (fun s₀ =>
      decide (((s₀.run trioCore revived).nodes 1).up? = some { born := 10, ticks := 1 } ∧
        ((s₀.run trioCore [.crash 1,.step]).ticks 1).isEmpty = true ∧
        (trioCore.startNode (s₀.run trioCore [.crash 1,.step]).sight 1 (s₀.run trioCore [.crash 1,.step]).rest).isOk =
          true)) = true := by
    decide +kernel
  cases hnew : new pulse trioCore (fun _ => {}) with
  | error err =>
    rw [hnew] at h
    cases h
  | ok s₀ =>
    rw [hnew] at h
    obtain ⟨hup,hgone,hok⟩ := of_decide_eq_true h
    refine ⟨s₀,rfl,hup,(ticks_single_iff hnew revived).mpr ?_⟩
    have hrestart : ∀ id, Op.restart 1 = .restart id → (s₀.run trioCore [.crash 1,.step]).Timely trioCore id := by
      intro id hid
      obtain rfl := Op.restart.inj hid
      exact .of_gone hgone hok
    simp only [revived,timelyRun_cons,reduceCtorEq,false_implies,implies_true,true_and]
    exact ⟨hrestart,timelyRun_nil⟩

/-- Node 1 is restarted at once. -/
def rushed : List Op := [.crash 1,.restart 1]

/-- It has two timers and is ticked twice in its first `tickEvery`: its election timeout is over when that of the others
is not. -/
theorem ticks_doubled : ∃ s₀, new pulse trioCore (fun _ => {}) = .ok s₀ ∧
    ((s₀.run trioCore rushed).nodes 1).up? = some { born := 0 } ∧ ((s₀.run trioCore rushed).ticks 1).length = 2 ∧
    (s₀.run trioCore (rushed ++ List.replicate 4 .step)).now = pulse.tickEvery ∧
    ([1,2,3].map fun id => ((s₀.run trioCore (rushed ++ List.replicate 4 .step)).nodes id).up?) =
      [some { born := 0, ticks := 2 },some { born := 0, ticks := 1 },some { born := 0, ticks := 1 }] ∧
    ([1,2,3].map fun id => ((s₀.run trioCore (rushed ++ List.replicate 4 .step)).rest id).vol.map fun p => p.raft.state) =
      [some .preCandidate,some .follower,some .follower] := by
  have h : (new pulse trioCore (fun _ => {})).toOption.any (fun s₀ =>
      decide (((s₀.run trioCore rushed).nodes 1).up? = some { born := 0 } ∧
        ((s₀.run trioCore rushed).ticks 1).length = 2 ∧
        (s₀.run trioCore (rushed ++ List.replicate 4 .step)).now = pulse.tickEvery ∧
        ([1,2,3].map fun id => ((s₀.run trioCore (rushed ++ List.replicate 4 .step)).nodes id).up?) =
          [some { born := 0, ticks := 2 },some { born := 0, ticks := 1 },some { born := 0, ticks := 1 }] ∧
        ([1,2,3].map fun id =>
          ((s₀.run trioCore (rushed ++ List.replicate 4 .step)).rest id).vol.map fun p => p.raft.state) =
          [some .preCandidate,some .follower,some .follower])) = true := by
    decide +kernel
  cases hnew : new pulse trioCore (fun _ => {}) with
  | error err =>
    rw [hnew] at h
    cases h
  | ok s₀ =>
    rw [hnew] at h
    exact ⟨s₀,rfl,of_decide_eq_true h⟩

end Simulator
end Parallax.Loop
