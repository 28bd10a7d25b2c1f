import Parallax.Sim.Driver

/-! What sending, answering and scheduling leave alone in the simulator. Whatever happens at a node changes that node,
the clients and the network; it schedules deliveries of the messages that it sends and of no others. -/
namespace Parallax.Simulation
open Kv Sim
open Loop (Call)

@[simp] theorem World.setNode_self (w : World) (id : Nat) (ns : NodeState) : (w.setNode id ns).nodes id = ns :=
  Function.update_self ..

theorem World.setNode_ne (w : World) {id j : Nat} (hj : j ≠ id) (ns : NodeState) : (w.setNode id ns).nodes j = w.nodes j :=
  Function.update_of_ne hj _ _

/-- Nothing is scheduled, or will be, for a time that is past. -/
structure Paced (w : World) : Prop where
  net : w.net.Paced
  think : 0 ≤ w.cfg.workload.thinkMin
  tick : 0 < w.cfg.tickEvery
  election : 0 ≤ w.cfg.electionTicks
  calls : ∀ after p, Call.schedule after p ∈ w.calls → 0 ≤ after

/-- The times to draw from are few enough for an int64. -/
structure World.Fits (w : World) : Prop where
  net : w.net.Fits
  think : w.cfg.workload.thinkMax - w.cfg.workload.thinkMin < 9223372036854775807

theorem World.Fits.congr {w w' : World} (h : w.Fits) (hnet : w'.net.cfg = w.net.cfg) (hcfg : w'.cfg = w.cfg) : w'.Fits where
  net := by
    rw [Network.Fits,hnet]
    exact h.net
  think := hcfg ▸ h.think

/-- Then no draw has panicked. -/
def Drawn (w : World) : Prop := w.Fits → w.rng.panicked = false

/-- An event that is not of a client is the delivery of one of the messages, and no fault. -/
def Payload.From (ms : List Message) : Payload → Prop
  | .deliver _ dst m => m ∈ ms ∧ dst = m.dest
  | .client _ | .retry _ _ _ => True
  | .fault _ => False

theorem Payload.From.mono {ms ms' : List Message} {p : Payload} (h : p.From ms) (hsub : ms ⊆ ms') : p.From ms' := by
  cases p with
  | deliver src dst m => exact ⟨hsub h.1,h.2⟩
  | client | retry | fault => exact h

/-- Something happened at node `id`, which sent messages of `ms`. -/
structure Around (id : Nat) (ms : List Message) (w w' : World) : Prop where
  only : ∃ hooked rng nodes hist clients calls, w' = { w with net := { w.net with hooked }, rng, nodes, hist, clients, calls }
  others : ∀ j, j ≠ id → w'.nodes j = w.nodes j
  /-- No client gets a command to wait for. -/
  clients : ∀ c' ∈ w'.clients, c'.pending = true → ∃ c ∈ w.clients, c.pending = true ∧ c'.cmd = c.cmd
  calls : ∀ after p, Call.schedule after p ∈ w'.calls → Call.schedule after p ∈ w.calls ∨ p.From ms
  paced : Paced w → Paced w'
  drawn : Drawn w → Drawn w'

/-- The node itself may at most have put reads aside. -/
structure Aside (id : Nat) (ms : List Message) (w w' : World) : Prop extends Around id ms w w' where
  node : ∃ rs, w'.nodes id = { w.nodes id with pendingReads := rs }

variable {id : Nat} {ms ms' : List Message} {w w' w'' : World}

namespace Around

theorem refl (id : Nat) (ms : List Message) (w : World) : Around id ms w w where
  only := ⟨_,_,_,_,_,_,rfl⟩
  others _ _ := rfl
  clients c hc hp := ⟨c,hc,hp,rfl⟩
  calls _ _ h := .inl h
  paced h := h
  drawn h := h

theorem now (h : Around id ms w w') : w'.now = w.now := by
  obtain ⟨_,_,_,_,_,_,rfl⟩ := h.only
  rfl

theorem cfg (h : Around id ms w w') : w'.cfg = w.cfg := by
  obtain ⟨_,_,_,_,_,_,rfl⟩ := h.only
  rfl

theorem net (h : Around id ms w w') : ∃ hooked, w'.net = { w.net with hooked } := by
  obtain ⟨_,_,_,_,_,_,rfl⟩ := h.only
  exact ⟨_,rfl⟩

theorem trans (h : Around id ms w w') (h' : Around id ms w' w'') : Around id ms w w'' where
  only := by
    obtain ⟨_,_,_,_,_,_,rfl⟩ := h.only
    obtain ⟨_,_,_,_,_,_,rfl⟩ := h'.only
    exact ⟨_,_,_,_,_,_,rfl⟩
  others j hj := (h'.others j hj).trans (h.others j hj)
  clients c hc hp := by
    obtain ⟨c₁,hc₁,hp₁,heq₁⟩ := h'.clients c hc hp
    obtain ⟨c₂,hc₂,hp₂,heq₂⟩ := h.clients c₁ hc₁ hp₁
    exact ⟨c₂,hc₂,hp₂,heq₁.trans heq₂⟩
  calls after p hp := (h'.calls after p hp).elim (h.calls after p) .inr
  paced hw := h'.paced (h.paced hw)
  drawn hw := h'.drawn (h.drawn hw)

theorem mono (h : Around id ms w w') (hsub : ms ⊆ ms') : Around id ms' w w' :=
  { h with calls := fun after p hp => (h.calls after p hp).imp_right fun hp => hp.mono hsub }

theorem setNode (id : Nat) (ms : List Message) (w : World) (ns : NodeState) : Around id ms w (w.setNode id ns) where
  only := ⟨_,_,_,_,_,_,rfl⟩
  others _ hj := w.setNode_ne hj ns
  clients c hc hp := ⟨c,hc,hp,rfl⟩
  calls _ _ h := .inl h
  paced h := ⟨h.net,h.think,h.tick,h.election,h.calls⟩
  drawn h hf := h ⟨hf.net,hf.think⟩

end Around

namespace Aside

private theorem refl (id : Nat) (ms : List Message) (w : World) : Aside id ms w w := ⟨.refl id ms w,_,rfl⟩

private theorem trans (h : Aside id ms w w') (h' : Aside id ms w' w'') : Aside id ms w w'' where
  toAround := h.toAround.trans h'.toAround
  node := by
    obtain ⟨_,hrs⟩ := h.node
    obtain ⟨rs',hrs'⟩ := h'.node
    exact ⟨rs',by rw [hrs',hrs]⟩

theorem foldl {α : Type} {f : World → α → World} (hf : ∀ w a, Aside id ms w (f w a)) (as : List α) (w : World) :
    Aside id ms w (as.foldl f w) := by
  induction as generalizing w with
  | nil => exact .refl id ms w
  | cons a as ih => exact (hf w a).trans (ih (f w a))

theorem of_calls {hooked : Nat} {rng : Rng} {hist : Lin.History} {clients : List Client} {calls : List (Call Payload)}
    (hc : ∀ c' ∈ clients, c'.pending = true → ∃ c ∈ w.clients, c.pending = true ∧ c'.cmd = c.cmd)
    (hcalls : ∀ after p, Call.schedule after p ∈ calls →
      Call.schedule after p ∈ w.calls ∨ (p.From ms ∧ (Paced w → 0 ≤ after)))
    (hrng : w.Fits → rng.panicked = w.rng.panicked) :
    Aside id ms w { w with net := { w.net with hooked }, rng, hist, clients, calls } := by
  refine ⟨⟨⟨_,_,_,_,_,_,rfl⟩,fun _ _ => rfl,hc,fun after p hp => (hcalls after p hp).imp_right And.left,fun h => ?_,
    fun h hf => ?_⟩,_,rfl⟩
  · refine ⟨⟨h.net.delay,h.net.hook⟩,h.think,h.tick,h.election,fun after p hp => ?_⟩
    exact (hcalls after p hp).elim (h.calls after p) fun hnew => hnew.2 h
  · have hfits : w.Fits := ⟨hf.net,hf.think⟩
    exact (hrng hfits).trans (h hfits)

theorem recordControl (id : Nat) (ms : List Message) (w : World) : Aside id ms w w.recordControl :=
  of_calls (fun c hc hp => ⟨c,hc,hp,rfl⟩) (fun after p hp => .inl (by simpa using hp)) fun _ => rfl

theorem schedule (id : Nat) (ms : List Message) (w : World) {after : Loop.VirtualTime} (hafter : Paced w → 0 ≤ after)
    {p : Payload} (hp : p.From ms) : Aside id ms w (w.schedule after p) := by
  refine of_calls (fun c hc hp => ⟨c,hc,hp,rfl⟩) (fun after' p' hm => ?_) fun _ => rfl
  rcases List.mem_append.mp hm with hm | hm
  · exact .inl hm
  · cases List.mem_singleton.mp hm
    exact .inr ⟨hp,hafter⟩

private theorem routed (id : Nat) (ms : List Message) (w : World) (hooked : Nat) {rng : Rng}
    (hrng : w.Fits → rng.panicked = w.rng.panicked) : Aside id ms w { w with net := { w.net with hooked }, rng } :=
  of_calls (fun c hc hp => ⟨c,hc,hp,rfl⟩) (fun _ _ hm => .inl hm) hrng

private theorem sendMessage (w : World) {m : Message} (hm : m ∈ ms) : Aside id ms w (w.sendMessage id m) := by
  have hsched : ∀ (w : World) {after : Loop.VirtualTime}, (Paced w → 0 ≤ after) →
      Aside id ms w (w.schedule after (.deliver id m.dest m)) :=
    fun w _ hafter => schedule id ms w hafter ⟨hm,rfl⟩
  unfold World.sendMessage
  split
  · exact hsched w fun _ => Int.le_refl 0
  obtain ⟨hooked,hnet⟩ := w.net.route_network w.rng id m.dest m
  have hdelay := fun h : w.net.Paced => h.route w.rng id m.dest m
  have hrng := fun h : w.Fits => h.net.route w.rng id m.dest m
  generalize w.net.route w.rng id m.dest m = x at hnet hdelay hrng
  obtain ⟨d,net,rng⟩ := x
  dsimp only at hnet hdelay hrng ⊢
  subst hnet
  have hw := routed id ms w hooked hrng
  have hback : ∀ {w' : World}, Aside id ms w w' → Paced w' → w.net.Paced := fun hw' h => by
    obtain ⟨_,_,_,_,_,_,rfl⟩ := hw'.only
    exact ⟨h.net.delay,h.net.hook⟩
  split
  · exact hw.trans (recordControl ..)
  have hdel : Aside id ms w (if d.deliver then
      { w with net := { w.net with hooked }, rng }.schedule d.delay (.deliver id m.dest m)
      else { w with net := { w.net with hooked }, rng }.recordControl) := by
    split
    · exact hw.trans (hsched _ fun h => (hdelay (hback hw h)).1)
    · exact hw.trans (recordControl ..)
  split
  · exact hdel.trans (hsched _ fun h => (hdelay (hback hdel h)).2)
  · exact hdel

/-- The step (2) of a drain. -/
theorem sendMessages (id : Nat) (ms : List Message) (w : World) : Aside id ms w (ms.foldl (World.sendMessage id) w) := by
  suffices h : ∀ (xs : List Message) (w : World), xs ⊆ ms → Aside id ms w (xs.foldl (World.sendMessage id) w) from
    h ms w (List.Subset.refl ms)
  intro xs
  induction xs with
  | nil => exact fun w _ => .refl id ms w
  | cons m xs ih =>
    intro w hsub
    exact (sendMessage w (hsub List.mem_cons_self)).trans (ih _ fun x hx => hsub (List.mem_cons_of_mem _ hx))

/-- Clients think for a while. -/
theorem drawThink_nonneg {w : World} (h : Paced w) : 0 ≤ w.drawThink.1 := by
  unfold World.drawThink
  dsimp only
  split_ifs with _ hlo
  · exact Int.le_of_lt hlo
  · exact Int.le_of_lt h.tick
  · exact Int.add_nonneg h.think (Int.natCast_nonneg _)

theorem drawThink_panicked {w : World} (h : w.Fits) : w.drawThink.2.panicked = w.rng.panicked := by
  unfold World.drawThink
  dsimp only
  split_ifs with hle
  · rfl
  · rfl
  · exact w.rng.uniform_panicked (Int.not_le.mp hle) h.think

private theorem finish (w : World) (i : Nat) (c : Client) (res : Result) : Aside id ms w (w.finish i c res) := by
  have hthink := fun h : Paced w => drawThink_nonneg h
  have hrng := fun h : w.Fits => drawThink_panicked h
  unfold World.finish
  generalize w.drawThink = x at hthink hrng
  obtain ⟨think,rng⟩ := x
  refine of_calls (fun c' hc' hp => ?_) (fun after p hp => ?_) hrng
  · rcases List.mem_or_eq_of_mem_set hc' with hc' | rfl
    · exact ⟨c',hc',hp,rfl⟩
    · cases hp
  have hp : Call.schedule after p ∈ w.calls ∨ after = think ∧ p = .client i := by
    simpa [World.recordControl,World.setClient] using hp
  exact hp.imp_right fun ⟨hafter,hp⟩ => ⟨hp ▸ trivial,hafter ▸ hthink⟩

theorem completeIfLeader (w : World) (cmd : Command) (res : Result) : Aside id ms w (w.completeIfLeader id cmd res) := by
  unfold World.completeIfLeader
  split
  · exact .refl id ms w
  split
  · exact .refl id ms w
  split
  · exact .refl id ms w
  · exact finish ..

private theorem serveRead (w : World) (rs : ReadState) : Aside id ms w (w.serveRead id rs) := by
  unfold World.serveRead
  split
  · exact .refl id ms w
  split
  · exact .refl id ms w
  dsimp only
  split
  · exact .refl id ms w
  split
  · exact .refl id ms w
  · exact finish ..

private theorem putReads (id : Nat) (ms : List Message) (w : World) (rs : List ReadState) :
    Aside id ms w (w.setNode id { w.nodes id with pendingReads := rs }) :=
  ⟨.setNode ..,rs,w.setNode_self ..⟩

theorem releaseRead (w : World) (rs : ReadState) : Aside id ms w (w.releaseRead id rs) := by
  unfold World.releaseRead
  dsimp only
  split
  · exact serveRead w rs
  · exact putReads ..

end Aside
end Parallax.Simulation
