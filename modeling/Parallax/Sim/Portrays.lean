import Parallax.Sim.Passage
import Parallax.Sim.Ticks
import Parallax.Sim.Unflawed

/-! A simulator that stands for a state of the cluster. Events that fire, checks, crashes, restarts and changes of the
network take it to a simulator that stands for another one. -/
namespace Parallax.Loop.Simulator
variable {σ π : Type}

theorem perform_rest (s : Simulator σ π) (x : σ × List (Call π)) : (s.perform x).rest = x.1 := by
  suffices h : ∀ (cs : List (Call π)) (t : Simulator σ π), (cs.foldl call t).rest = t.rest from h x.2 _
  intro cs
  induction cs with
  | nil => exact fun _ => rfl
  | cons c cs ih =>
    intro t
    rw [List.foldl_cons,ih]
    cases c <;> rfl

theorem mem_perform_queue {s : Simulator σ π} {x : σ × List (Call π)} {e : Event π} (h : e ∈ (s.perform x).queue) :
    e ∈ s.queue ∨ ∃ after p, Call.schedule after p ∈ x.2 ∧ e.action = .other p ∧ e.time = s.now + after := by
  suffices hall : ∀ (cs : List (Call π)) (t : Simulator σ π), e ∈ (cs.foldl call t).queue →
      e ∈ t.queue ∨ ∃ after p, Call.schedule after p ∈ cs ∧ e.action = .other p ∧ e.time = t.now + after from
    hall x.2 { s with rest := x.1 } h
  intro cs
  induction cs with
  | nil => exact fun t ht => .inl ht
  | cons c cs ih =>
    intro t ht
    rcases ih (t.call c) ht with ht | ⟨after,p,hp,he,hat⟩
    · cases c with
      | schedule after p =>
        rcases List.mem_cons.mp ht with rfl | ht
        · exact .inr ⟨after,p,List.mem_cons_self,rfl,rfl⟩
        · exact .inl ht
      | recordControl => exact .inl ht
    · exact .inr ⟨after,p,List.mem_cons_of_mem _ hp,he,(t.call_alike c).now ▸ hat⟩

end Parallax.Loop.Simulator
namespace Parallax.Simulation
open Kv Sim Cluster Consensus
open Loop (Call)
variable {S : Setup} {H : Hist} {k : Nat} {fits calm : Prop} {s : Simulator} {w : World} {c c' : State (serving S).app}

/-- If the event is a delivery, then of a message that was sent. -/
def Sent (c : State (serving S).app) (e : Loop.Event Payload) : Prop :=
  ∀ src dst m, e.action = .other (.deliver src dst m) → m ∈ c.net ∧ m.dest = dst

theorem Sent.onward {e : Loop.Event Payload} (h : Sent c e) (ho : Onward c c') : Sent c' e := fun src dst m he =>
  ⟨ho.net (h src dst m he).1,(h src dst m he).2⟩

/-- The node runs. -/
def Up (s : Simulator) (n : Nat) : Prop := (s.nodes n).crashed = false ∧ (s.rest.nodes n).up?.isSome = true

/-- The fault that the action is. -/
def fault? : Loop.Action Payload → Option Fault
  | .other (.fault f) => some f
  | .tick _ | .other (.deliver _ _ _) | .other (.client _) | .other (.retry _ _ _) => none

/-- The faults that are still to come. -/
def faults (q : List (Loop.Event Payload)) : List Fault := q.filterMap fun e => fault? e.action

/-- Nothing has crashed, the network is split as it was, and the same faults are to come. -/
structure Steady (s s' : Simulator) : Prop where
  peers : s'.peers = s.peers
  net : ∃ hooked, s'.rest.net = { s.rest.net with hooked }
  crashed : ∀ n, (s'.nodes n).crashed = (s.nodes n).crashed
  alive : ∀ n, (s.rest.nodes n).up?.isSome = true → (s'.rest.nodes n).up?.isSome = true
  faults : faults s'.queue = faults s.queue

/-- All nodes run, and nothing divides them. -/
structure Whole (s : Simulator) : Prop where
  net : s.rest.net.partition = none
  up : ∀ n ∈ s.peers, Up s n

/-- The nodes `ids` were built. -/
structure Built (ids : List Nat) (s s' : Simulator) : Prop where
  peers : s'.peers = s.peers
  queue : s'.queue = s.queue
  net : s'.rest.net = s.rest.net
  hist : s'.rest.hist = s.rest.hist
  cfg : s'.rest.cfg = s.rest.cfg
  up : ∀ n, n ∈ ids ∨ Up s n → Up s' n

theorem Built.trans {ids ids' : List Nat} {s' s'' : Simulator} (h : Built ids s s') (h' : Built ids' s' s'') :
    Built (ids ++ ids') s s'' where
  peers := h'.peers.trans h.peers
  queue := h'.queue.trans h.queue
  net := h'.net.trans h.net
  hist := h'.hist.trans h.hist
  cfg := h'.cfg.trans h.cfg
  up n hn := by
    rcases hn with hn | hn
    · rcases List.mem_append.mp hn with hn | hn
      · exact h'.up n (.inr (h.up n (.inl hn)))
      · exact h'.up n (.inl hn)
    · exact h'.up n (.inr (h.up n (.inr hn)))

theorem Steady.refl (s : Simulator) : Steady s s := ⟨rfl,⟨_,rfl⟩,fun _ => rfl,fun _ hn => hn,rfl⟩

theorem Steady.up {s' : Simulator} (h : Steady s s') {n : Nat} (hn : Up s n) : Up s' n :=
  ⟨(h.crashed n).trans hn.1,h.alive n hn.2⟩

theorem Steady.partition {s' : Simulator} (h : Steady s s') : s'.rest.net.partition = s.rest.net.partition := by
  obtain ⟨_,hn⟩ := h.net
  rw [hn]

theorem Whole.steady {s' : Simulator} (h : Whole s) (hs : Steady s s') : Whole s' :=
  ⟨hs.partition.trans h.net,fun n hn => hs.up (h.up n (hs.peers ▸ hn))⟩

theorem Payload.From.fault? {ms : List Message} {p : Payload} (h : p.From ms) : fault? (.other p) = none := by
  cases p with
  | fault f => exact h.elim
  | deliver | client | retry => rfl

theorem faults_perform (s : Simulator) {ms : List Message} (hw : ∀ after p, Call.schedule after p ∈ w.calls → p.From ms) :
    faults (s.perform w.flush).queue = faults s.queue := by
  suffices hall : ∀ (cs : List (Call Payload)) (t : Simulator), (∀ after p, Call.schedule after p ∈ cs → p.From ms) →
      faults (cs.foldl Loop.Simulator.call t).queue = faults t.queue from hall w.calls { s with rest := _ } hw
  intro cs
  induction cs with
  | nil => exact fun _ _ => rfl
  | cons c cs ih =>
    intro t hcs
    refine (ih (t.call c) fun after p hp => hcs after p (List.mem_cons_of_mem _ hp)).trans ?_
    cases c with
    | schedule after p => exact List.filterMap_cons_none (hcs after p List.mem_cons_self).fault?
    | recordControl => rfl

/-- Nothing is due before now, and the books are kept. -/
structure Booked (S : Setup) (k : Nat) (s : Simulator) (c : State (serving S).app) (H : Hist) : Prop where
  paced : Paced s.rest
  accounts : ∃ B, Accounts S k s.rest c H B
  turned : s.rest.now ≤ s.now
  due : ∀ e ∈ s.queue, s.now ≤ e.time
  tickEvery : 0 ≤ s.cfg.tickEvery

/-- The simulator stands for the state `c` of the cluster. If its configuration `fits`, no draw can panic, and if it is
`calm`, its books are kept. -/
structure Portrays (S : Setup) (fits calm : Prop) (k : Nat) (s : Simulator) (c : State (serving S).app) (H : Hist) :
    Prop where
  world : Refines S k s.rest c H
  peers : s.peers = S.peers
  flushed : s.rest.calls = []
  queue : ∀ e ∈ s.queue, Sent c e
  down : ∀ n ∈ S.peers, (s.nodes n).crashed = true → (c.host n).vol = none
  spans : fits → s.rest.Fits
  booked : calm → Booked S k s c H

namespace Booked

private theorem mono (h : Booked S k s c H) {k' : Nat} (hk : k ≤ k') : Booked S k' s c H :=
  { h with accounts := h.accounts.imp fun _ hB => hB.mono hk }

theorem passes {k' k'' : Nat} {H' : Hist} (h : Booked S k s c H) {t : Loop.Sight} (ht : t.now = s.now)
    (hp : Passage S k k' k'' (s.rest.turnTo t) c H w c' H') : Booked S k' { s with rest := w } c' H' where
  paced := hp.paced ⟨h.paced.net,h.paced.think,h.paced.tick,h.paced.election,h.paced.calls⟩
  accounts := by
    obtain ⟨B,hB⟩ := h.accounts
    exact hp.books B (hB.turnTo (ht ▸ h.turned))
  turned := Int.le_of_eq (hp.now.trans ht)
  due := h.due
  tickEvery := h.tickEvery

/-- An event is put into the queue. -/
theorem schedule (h : Booked S k s c H) {after : Loop.VirtualTime} (hafter : 0 ≤ after) (a : Loop.Action Payload) :
    Booked S k (s.schedule after a) c H := by
  refine ⟨h.paced,h.accounts,h.turned,fun e he => ?_,h.tickEvery⟩
  rcases List.mem_cons.mp he with rfl | he
  · exact Int.le_add_of_nonneg_right hafter
  · exact h.due e he

private theorem perform (h : Booked S k { s with rest := w } c H) : Booked S k (s.perform w.flush) c H := by
  have halike := s.perform_alike w.flush
  have hrest : (s.perform w.flush).rest = { w with calls := [] } := Loop.Simulator.perform_rest ..
  refine ⟨?_,?_,?_,fun e he => ?_,halike.cfg ▸ h.tickEvery⟩
  · rw [hrest]
    exact ⟨h.paced.net,h.paced.think,h.paced.tick,h.paced.election,fun _ _ hmem => by cases hmem⟩
  · obtain ⟨B,hB⟩ := h.accounts
    rw [hrest]
    exact ⟨B,hB.toKeeping.congr rfl rfl rfl,hB.toVouched,hB.committed⟩
  · rw [hrest,halike.now]
    exact h.turned
  rw [halike.now]
  rcases Loop.Simulator.mem_perform_queue he with he | ⟨after,p,hp,_,hat⟩
  · exact h.due e he
  · rw [hat]
    exact Int.le_add_of_nonneg_right (h.paced.calls after p hp)

end Booked

/-- What an action scheduled goes into the queue. -/
theorem portrays_perform (hw : Refines S k w c H) (hpeers : s.peers = S.peers) (hqueue : ∀ e ∈ s.queue, Sent c e)
    (hdown : ∀ n ∈ S.peers, (s.nodes n).crashed = true → (c.host n).vol = none) (hspans : fits → w.Fits)
    (hbooked : calm → Booked S k { s with rest := w } c H) : Portrays S fits calm k (s.perform w.flush) c H := by
  have halike := s.perform_alike w.flush
  refine ⟨?_,halike.peers.trans hpeers,?_,fun e he => ?_,fun n hn hc => hdown n hn (halike.nodes ▸ hc),fun hfits => ?_,
    fun hcalm => (hbooked hcalm).perform⟩
  · rw [Loop.Simulator.perform_rest]
    exact hw.beside hw.requests fun _ _ hm => by cases hm
  · rw [Loop.Simulator.perform_rest]
    rfl
  · rcases Loop.Simulator.mem_perform_queue he with he | ⟨after,p,hp,hact,_⟩
    · exact hqueue e he
    rintro src dst m hm
    rw [hact,Loop.Action.other.injEq] at hm
    rw [hm] at hp
    exact (hw.deliveries after _ hp).imp_right Eq.symm
  · rw [Loop.Simulator.perform_rest]
    exact (hspans hfits).congr rfl rfl

/-- A check leaves the world as it was, but for what it found. -/
theorem World.check_eq (w : World) : ∃ firstErr orders checker, w.check = { w with firstErr, orders, checker } := by
  unfold World.check
  split
  · exact ⟨_,_,_,rfl⟩
  split
  · exact ⟨_,_,_,rfl⟩
  · exact ⟨_,_,_,rfl⟩

theorem Refines.checks (h : Refines S k w c H) (q : Nat) : Passage S q q k w c H w.check c H := by
  have hw := h.check
  obtain ⟨_,_,_,heq⟩ := w.check_eq
  rw [heq] at hw ⊢
  exact Refines.aside (w := w) hw (fun hp => ⟨hp.net,hp.think,hp.tick,hp.election,hp.calls⟩) rfl rfl rfl rfl rfl rfl q

theorem steady_perform {q q' k' : Nat} {H' : Hist} {t : Loop.Sight} {nodes : Nat → Loop.NodeState}
    (hcrashed : ∀ n, (nodes n).crashed = (s.nodes n).crashed) (hpass : Passage S q q' k' (s.rest.turnTo t) c H w c' H') :
    Steady s (Loop.Simulator.perform { s with nodes } w.flush) := by
  have halike := Loop.Simulator.perform_alike { s with nodes } w.flush
  have hrest : (Loop.Simulator.perform { s with nodes } w.flush).rest = { w with calls := [] } :=
    Loop.Simulator.perform_rest ..
  refine ⟨halike.peers,?_,fun n => ?_,fun n hn => ?_,faults_perform _ hpass.refines.deliveries⟩
  · rw [hrest]
    exact hpass.net
  · rw [halike.nodes]
    exact hcrashed n
  · rw [hrest]
    exact hpass.alive n hn

theorem Steady.scheduleTick {s' : Simulator} (h : Steady s s') (id : Nat) : Steady s (s'.scheduleTick id) :=
  { h with faults := h.faults }

namespace Portrays

theorem mono (h : Portrays S fits calm k s c H) {k' : Nat} (hk : k ≤ k') : Portrays S fits calm k' s c H :=
  { h with
    world := h.world.mono hk
    booked := fun hcalm => (h.booked hcalm).mono hk }

theorem turned (h : Portrays S fits calm k s c H) (t : Loop.Sight) : Refines S k (s.rest.turnTo t) c H :=
  h.world.beside h.world.requests h.world.deliveries

private theorem passed {q q' k' : Nat} {H' : Hist} (h : Portrays S fits calm k s c H) {t : Loop.Sight}
    (hpass : Passage S q q' k' (s.rest.turnTo t) c H w c' H') (hfits : fits) : w.Fits :=
  hpass.fits ((h.spans hfits).congr rfl rfl)

/-- An event that is no delivery is put into the queue. -/
theorem schedule (h : Portrays S fits calm k s c H) {after : Loop.VirtualTime} (hafter : calm → 0 ≤ after)
    {a : Loop.Action Payload} (ha : ∀ src dst m, a ≠ .other (.deliver src dst m)) :
    Portrays S fits calm k (s.schedule after a) c H := by
  refine ⟨h.world,h.peers,h.flushed,fun e he => ?_,h.down,h.spans,fun hcalm => (h.booked hcalm).schedule (hafter hcalm) a⟩
  rcases List.mem_cons.mp he with rfl | he
  · exact fun src dst m hm => absurd hm (ha src dst m)
  · exact h.queue e he

theorem scheduleTick (h : Portrays S fits calm k s c H) (id : Nat) : Portrays S fits calm k (s.scheduleTick id) c H :=
  h.schedule (fun hcalm => (h.booked hcalm).tickEvery) fun _ _ _ hm => by cases hm

/-- A tick or another event fires. -/
theorem fire (h : Portrays S fits calm k s c H) (hk : k + 1 < 2 ^ 64) {a : Loop.Action Payload}
    (ha : ∀ src dst m, a = .other (.deliver src dst m) → m ∈ c.net ∧ m.dest = dst) :
    ∃ H' c', Portrays S fits calm (k + 1) (s.fire harness a) c' H' ∧ Steady s (s.fire harness a) := by
  cases a with
  | tick id =>
    change ∃ H' c', Portrays S fits calm (k + 1) (s.fireTick harness id) c' H' ∧ Steady s (s.fireTick harness id)
    unfold Loop.Simulator.fireTick
    cases hup : (s.nodes id).up? with
    | none => exact ⟨H,c,h.mono (Nat.le_succ k),.refl s⟩
    | some t =>
      obtain ⟨H',c',hpass⟩ := (h.turned s.sight).tick hk id k
      have hcrashed : ∀ n, ((s.setNode id { node := some { t with ticks := t.ticks + 1 } }).nodes n).crashed =
          (s.nodes n).crashed := by
        intro n
        by_cases hid : n = id
        · subst hid
          rw [Loop.Simulator.setNode]
          cases hc : (s.nodes n).crashed with
          | false => simp
          | true => simp [Loop.NodeState.up?,hc] at hup
        · rw [Loop.Simulator.setNode]
          simp [hid]
      have hbooked : calm → Booked S (k + 1) { s.setNode id { node := some { t with ticks := t.ticks + 1 } } with
          rest := (s.rest.turnTo s.sight).input id .tick } c' H' := fun hcalm => by
        obtain ⟨hpaced,haccounts,hturned,hdue,htick⟩ := ((h.booked hcalm).passes rfl hpass).mono (Nat.le_succ k)
        exact ⟨hpaced,haccounts,hturned,hdue,htick⟩
      have hdone := portrays_perform (s := s.setNode id { node := some { t with ticks := t.ticks + 1 } }) hpass.refines
        h.peers (fun e he => (h.queue e he).onward hpass.onward)
        (fun n hn hc => hpass.onward.down n (h.down n hn (hcrashed n ▸ hc))) (h.passed hpass) hbooked
      exact ⟨H',c',hdone.scheduleTick id,(steady_perform hcrashed hpass).scheduleTick id⟩
  | other p =>
    obtain ⟨H',c',hpass⟩ := (h.turned s.sight).fire hk (p := p) (q := k) (fun src dst m hp => ha src dst m (by rw [hp])) hk
    exact ⟨H',c',portrays_perform hpass.refines h.peers (fun e he => (h.queue e he).onward hpass.onward)
      (fun n hn hc => hpass.onward.down n (h.down n hn hc)) (h.passed hpass) fun hcalm => (h.booked hcalm).passes rfl hpass,
      steady_perform (fun _ => rfl) hpass⟩

/-- The earliest event is taken from the queue. -/
theorem popped (h : Portrays S fits calm k s c H) {e : Loop.Event Payload} {q : List (Loop.Event Payload)}
    (hpop : Loop.pop s.queue = some (e,q)) : Portrays S fits calm k { s with now := e.time, queue := q } c H ∧ Sent c e := by
  have hmin := Loop.pop_min hpop
  obtain ⟨xs,ys,hq,rfl⟩ := Loop.pop_split hpop
  have hmem : ∀ e' ∈ xs ++ ys, e' ∈ s.queue := by
    intro e' he'
    rw [hq]
    simp only [List.mem_append,List.mem_cons] at he' ⊢
    tauto
  have he : e ∈ s.queue := by
    rw [hq]
    simp
  exact ⟨{ h with
    queue := fun e' he' => h.queue e' (hmem e' he')
    booked := fun hcalm => { h.booked hcalm with
      turned := Int.le_trans (h.booked hcalm).turned ((h.booked hcalm).due e he)
      due := hmin } },h.queue e he⟩

theorem checked (h : Portrays S fits calm k s c H) : Portrays S fits calm k { s with rest := harness.check s.sight s.rest } c H := by
  have hpass := (h.turned s.sight).checks k
  refine ⟨hpass.refines,h.peers,?_,h.queue,h.down,h.passed hpass,fun hcalm => (h.booked hcalm).passes rfl hpass⟩
  obtain ⟨_,_,_,heq⟩ := World.check_eq (s.rest.turnTo s.sight)
  exact (congrArg World.calls heq).trans h.flushed

private theorem step (h : Portrays S fits calm k s c H) (hk : k + 1 < 2 ^ 64) :
    ∃ H' c', Portrays S fits calm (k + 1) (s.step harness) c' H' := by
  unfold Loop.Simulator.step
  cases hpop : Loop.pop s.queue with
  | none => exact ⟨H,c,h.mono (Nat.le_succ k)⟩
  | some x =>
    obtain ⟨hpopped,hsent⟩ := h.popped hpop
    obtain ⟨H',c',hfired,_⟩ := hpopped.fire hk hsent
    exact ⟨H',c',hfired.checked⟩

private theorem crash (h : Portrays S fits calm k s c H) (id : Nat) :
    ∃ c', Portrays S fits calm k (s.crash harness id) c' H := by
  unfold Loop.Simulator.crash
  split_ifs with hno
  · exact ⟨c,h⟩
  have hid : id ∈ S.peers := by
    by_contra hid
    exact hno (.inl (h.peers ▸ hid))
  refine ⟨c.next (serving S) (.crash id),h.world.crash hid,h.peers,h.flushed,fun e he => ?_,fun n hn hc => ?_,
    fun hfits => (h.spans hfits).congr rfl rfl,fun hcalm => ?_⟩
  · exact h.queue e he
  · by_cases hnid : n = id
    · subst hnid
      simp [State.next,State.setHost]
    have hc : (s.nodes n).crashed = true := by
      simpa [Loop.Simulator.setNode,Loop.Simulator.recordControl,hnid] using hc
    simpa [State.next,State.setHost,hnid] using h.down n hn hc
  obtain ⟨hpaced,⟨B,hB⟩,hturned,hdue,htick⟩ := h.booked hcalm
  exact ⟨⟨hpaced.net,hpaced.think,hpaced.tick,hpaced.election,hpaced.calls⟩,
    ⟨B,hB.step h.world.inv hid rfl rfl rfl rfl⟩,hturned,hdue,htick⟩

/-- A node that is down is built again. -/
theorem start (h : Portrays S fits calm k s c H) (hk : k < 2 ^ 64) {id : Nat} (hid : id ∈ S.peers) (hvol : (c.host id).vol = none) :
    ∃ w' c', harness.startNode s.sight id s.rest = .ok w' ∧ (∀ n, n ≠ id → c'.host n = c.host n) ∧
      Portrays S fits calm k ({ s with rest := w' }.build id) c' H ∧ Built [id] s ({ s with rest := w' }.build id) ∧
      ∃ r, (w'.nodes id).up? = some r ∧ r.failed = false := by
  have hdown : (s.rest.nodes id).up? = none := by
    cases hup : (s.rest.nodes id).up? with
    | none => rfl
    | some r =>
      obtain ⟨p,hp,_⟩ := (h.world.mirrors id hid).up r hup
      rw [hvol] at hp
      cases hp
  obtain ⟨w',hstart,hw',hsame,hothers,hup⟩ := h.world.start hid hdown hk
  set c₁ := c.next (serving S) (.restart id (s.rest.seeds 0)) with hc₁
  have hnet : c₁.net = c.net := by
    rw [hc₁]
    simp only [State.next]
    split <;> rfl
  have hhost : ∀ n, n ≠ id → c₁.host n = c.host n := by
    intro n hn
    rw [hc₁]
    simp only [State.next]
    split
    · exact Function.update_of_ne hn _ _
    · rfl
  have hfixed : w'.net.cfg = s.rest.net.cfg ∧ w'.cfg = s.rest.cfg := by
    rw [hsame]
    exact ⟨rfl,rfl⟩
  refine ⟨w',c₁,hstart,hhost,⟨hw',h.peers,?_,fun e he src dst m hm => hnet ▸ h.queue e he src dst m hm,fun n hn hc => ?_,
    fun hfits => (h.spans hfits).congr hfixed.1 hfixed.2,fun hcalm => ?_⟩,?_,hup⟩
  · change w'.calls = []
    rw [hsame]
    exact h.flushed
  · by_cases hnid : n = id
    · subst hnid
      simp [Loop.Simulator.build,Loop.Simulator.setNode] at hc
    · rw [hhost n hnid]
      exact h.down n hn (by simpa [Loop.Simulator.build,Loop.Simulator.setNode,hnid] using hc)
  · obtain ⟨hpaced,⟨B,hB⟩,hturned,hdue,htick⟩ := h.booked hcalm
    have hB' : Accounts S k w' c₁ H B := by
      rw [hsame]
      exact hB.step h.world.inv hid rfl rfl rfl rfl
    have hpaced' : Paced w' := by
      rw [hsame]
      exact ⟨hpaced.net,hpaced.think,hpaced.tick,hpaced.election,hpaced.calls⟩
    have hnow : w'.now = s.rest.now := by rw [hsame]
    exact ⟨hpaced',⟨B,hB'⟩,Int.le_trans (Int.le_of_eq hnow) hturned,hdue,htick⟩
  have hrest : ({ s with rest := w' }.build id : Simulator).rest = w' := rfl
  refine ⟨rfl,rfl,?_,?_,?_,fun n hn => ?_⟩
  · rw [hrest,hsame]
  · rw [hrest,hsame]
  · rw [hrest,hsame]
  by_cases hnid : n = id
  · subst hnid
    obtain ⟨r,hr,_⟩ := hup
    refine ⟨?_,Option.isSome_iff_exists.mpr ⟨r,hr⟩⟩
    simp [Loop.Simulator.build,Loop.Simulator.setNode]
  obtain ⟨hc,hu⟩ := hn.resolve_left (by simpa using hnid)
  refine ⟨?_,?_⟩
  · simpa [Loop.Simulator.build,Loop.Simulator.setNode,hnid] using hc
  · rw [hrest,hothers n hnid]
    exact hu

theorem restart (h : Portrays S fits calm k s c H) (hk : k + 1 < 2 ^ 64) (id : Nat) :
    ∃ H' c', Portrays S fits calm (k + 1) (s.restart harness id) c' H' ∧
      (id ∈ s.peers → (s.nodes id).crashed = true → ∃ s₁, Built [id] s s₁ ∧ Steady s₁ (s.restart harness id)) := by
  unfold Loop.Simulator.restart
  split_ifs with hno
  · refine ⟨H,c,h.mono (Nat.le_succ k),fun hid hcr => ?_⟩
    exact absurd hcr (hno.resolve_left (not_not.mpr hid))
  obtain ⟨hid,hcr⟩ : id ∈ S.peers ∧ (s.nodes id).crashed = true := by
    rw [h.peers] at hno
    simpa using hno
  obtain ⟨w',c₁,hstart,_,h₁,hbuilt,r,hup,hfail⟩ := h.start (by omega) hid (h.down id hid hcr)
  rw [hstart]
  have hrec : Portrays S fits calm k ({ s with rest := w' }.build id).recordControl c₁ H :=
    ⟨h₁.world,h₁.peers,h₁.flushed,h₁.queue,h₁.down,h₁.spans,fun hcalm =>
      let hb := h₁.booked hcalm
      ⟨hb.paced,hb.accounts,hb.turned,hb.due,hb.tickEvery⟩⟩
  have hs := hrec.scheduleTick id
  obtain ⟨H',c',hpass⟩ := (hs.turned (Loop.Simulator.sight _)).drains hk hup hfail k
  refine ⟨H',c',portrays_perform hpass.refines hs.peers (fun e he => (hs.queue e he).onward hpass.onward)
    (fun n hn hc => hpass.onward.down n (hs.down n hn hc)) (hs.passed hpass)
    (fun hcalm => ((hs.booked hcalm).passes rfl hpass).mono (Nat.le_succ k)),fun _ _ => ⟨_,hbuilt,?_⟩⟩
  have hsteady := steady_perform (fun _ => rfl) hpass
  exact ⟨hsteady.peers,hsteady.net,hsteady.crashed,hsteady.alive,hsteady.faults⟩

private theorem setNet (h : Portrays S fits calm k s c H) (net : Network) (hcfg : net.cfg = s.rest.net.cfg)
    (hnet : calm → s.rest.net.Paced → net.Paced) : Portrays S fits calm k (Simulator.setNet s net) c H :=
  { h with
    world := h.world.redraw hcfg fun _ => rfl
    spans := fun hfits => (h.spans hfits).congr hcfg rfl
    booked := fun hcalm => by
      obtain ⟨hpaced,⟨B,hB⟩,hturned,hdue,htick⟩ := h.booked hcalm
      exact ⟨⟨hnet hcalm hpaced.net,hpaced.think,hpaced.tick,hpaced.election,hpaced.calls⟩,
        ⟨B,hB.toKeeping.congr rfl rfl rfl,hB.toVouched,hB.committed⟩,hturned,hdue,htick⟩ }

private theorem recordControl (h : Portrays S fits calm k s c H) : Portrays S fits calm k s.recordControl c H :=
  ⟨h.world,h.peers,h.flushed,h.queue,h.down,h.spans,fun hcalm =>
    let hb := h.booked hcalm
    ⟨hb.paced,hb.accounts,hb.turned,hb.due,hb.tickEvery⟩⟩

end Portrays

/-- No call asks for something before its time. -/
def Op.Gentle : Op → Prop
  | .setMessageHook hook => ∀ f, hook = some f → ∀ j src dst m, 0 ≤ (f j src dst m).extraDelay
  | .scheduleFault after _ => 0 ≤ after
  | .step | .crash _ | .restart _ | .partition _ | .heal => True

namespace Portrays

/-- Any call of a method of the simulator. -/
theorem op (h : Portrays S fits calm k s c H) (hk : k + 1 < 2 ^ 64) (o : Op) (ho : calm → o.Gentle) :
    ∃ H' c', Portrays S fits calm (k + 1) (Simulator.op s o) c' H' := by
  cases o with
  | step => exact h.step hk
  | crash id =>
    obtain ⟨c',h'⟩ := h.crash id
    exact ⟨H,c',h'.mono (Nat.le_succ k)⟩
  | restart id =>
    obtain ⟨H',c',h',_⟩ := h.restart hk id
    exact ⟨H',c',h'⟩
  | partition groups =>
    have hnet := h.setNet _ (s.rest.net.setPartition_cfg groups) fun _ hp => hp.setPartition groups
    exact ⟨H,c,hnet.recordControl.mono (Nat.le_succ k)⟩
  | heal =>
    have hnet := h.setNet s.rest.net.heal rfl fun _ hp => ⟨hp.delay,hp.hook⟩
    exact ⟨H,c,hnet.recordControl.mono (Nat.le_succ k)⟩
  | setMessageHook hook =>
    have hnet := h.setNet { s.rest.net with hook } rfl fun hcalm hp => ⟨hp.delay,ho hcalm⟩
    exact ⟨H,c,hnet.mono (Nat.le_succ k)⟩
  | scheduleFault after j => exact ⟨H,c,(h.schedule ho fun _ _ _ hm => by cases hm).mono (Nat.le_succ k)⟩

theorem run (h : Portrays S fits calm k s c H) (ops : List Op) (hops : calm → ∀ o ∈ ops, o.Gentle) (hk : k + ops.length < 2 ^ 64) :
    ∃ H' c', Portrays S fits calm (k + ops.length) (Simulator.run s ops) c' H' := by
  induction ops generalizing k s c H with
  | nil => exact ⟨H,c,h⟩
  | cons o ops ih =>
    rw [List.length_cons] at hk
    obtain ⟨H₁,c₁,h₁⟩ := h.op (by omega) o fun hcalm => hops hcalm o List.mem_cons_self
    obtain ⟨H',c',h'⟩ := ih h₁ (fun hcalm o ho => hops hcalm o (List.mem_cons_of_mem _ ho)) (by omega)
    rw [List.length_cons,show k + (ops.length + 1) = k + 1 + ops.length by omega]
    exact ⟨H',c',h'⟩

end Portrays
end Parallax.Simulation
