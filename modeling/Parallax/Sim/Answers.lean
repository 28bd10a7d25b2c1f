import Parallax.Kv.Spec
import Parallax.Sim.Aside

/-! Answers to clients. What clients and the recorder notice of a drain are the results that clients are given: those of
the commands that the node applies, and those of the reads that it releases. -/
namespace Parallax.Simulation
open Kv Sim BigEndian
open StateMachine (fold command?)
variable {n : Nat} {w w' w'' : World} {J J' : Nat → Client → Result → Prop}

/-- Clients are given the results that they wait for, and `J` says why. -/
inductive Replies (J : Nat → Client → Result → Prop) : World → World → Prop
  | quiet {w w' : World} (hc : w'.clients = w.clients) (hh : w'.hist = w.hist) (hn : w'.now = w.now) : Replies J w w'
  | reply {w w' : World} {i : Nat} {c : Client} {res : Result} (hi : w.clients[i]? = some c) (hp : c.pending = true)
      (hj : J i c res) (hc : w'.clients = w.clients.set i { c with pending := false })
      (hh : w'.hist = w.hist.complete c.histID res (Int64.ofInt w.now)) (hn : w'.now = w.now) : Replies J w w'
  | trans {w w' w'' : World} (h : Replies J w w') (h' : Replies J w' w'') : Replies J w w''

namespace Replies

theorem refl (w : World) : Replies J w w := .quiet rfl rfl rfl

theorem mono (h : Replies J w w') (hJ : ∀ i c res, J i c res → J' i c res) : Replies J' w w' := by
  induction h with
  | quiet hc hh hn => exact .quiet hc hh hn
  | reply hi hp hj hc hh hn => exact .reply hi hp (hJ _ _ _ hj) hc hh hn
  | trans _ _ ih ih' => exact ih.trans ih'

/-- No client gets anything to wait for. -/
theorem waiting (h : Replies J w w') {i : Nat} {c : Client} (hi : w'.clients[i]? = some c) (hp : c.pending = true) :
    w.clients[i]? = some c := by
  induction h with
  | quiet hc => rwa [← hc]
  | @reply w w' j c' _ hj _ _ hc =>
    rw [hc,List.getElem?_set] at hi
    split_ifs at hi with hij hlt
    · obtain rfl := Option.some.inj hi
      cases hp
    · exact hi
  | trans _ _ ih ih' => exact ih (ih' hi)

/-- Whoever is given a result has waited for it from the start. -/
theorem awaited (h : Replies J w w') :
    Replies (fun i c res => J i c res ∧ w.clients[i]? = some c ∧ c.pending = true) w w' := by
  induction h with
  | quiet hc hh hn => exact .quiet hc hh hn
  | reply hi hp hj hc hh hn => exact .reply hi hp ⟨hj,hi,hp⟩ hc hh hn
  | trans h _ ih ih' => exact ih.trans (ih'.mono fun i c res hj => ⟨hj.1,h.waiting hj.2.1 hj.2.2,hj.2.2⟩)

private theorem foldl {α : Type} {f : World → α → World} (hf : ∀ w a, Replies J w (f w a)) (as : List α) (w : World) :
    Replies J w (as.foldl f w) := by
  induction as generalizing w with
  | nil => exact .refl w
  | cons a as ih => exact (hf w a).trans (ih (f w a))

end Replies

private theorem client?_eq_some {id : UInt64} {i : Nat} {c : Client} :
    w.client? id = some (i,c) ↔ id.toNat = i + 1 ∧ w.clients[i]? = some c := by
  have hzero : id = 0 ↔ id.toNat = 0 := UInt64.toNat_inj.symm
  unfold World.client?
  split_ifs with h0
  · rw [hzero] at h0
    simp only [false_iff]
    omega
  rw [hzero] at h0
  simp only [Option.map_eq_some_iff,Prod.mk.injEq]
  constructor
  · rintro ⟨c',hc',rfl,rfl⟩
    exact ⟨by omega,hc'⟩
  rintro ⟨hid,hc⟩
  rw [hid]
  exact ⟨c,hc,rfl,rfl⟩

private theorem replies_finish {i : Nat} {c : Client} {res : Result} (hi : w.clients[i]? = some c) (hp : c.pending = true)
    (hj : J i c res) : Replies J w (w.finish i c res) ∧ (w.finish i c res).nodes = w.nodes ∧
      (w.finish i c res).clients = w.clients.set i { c with pending := false } := by
  unfold World.finish
  obtain ⟨think,rng⟩ := w.drawThink
  exact ⟨.reply hi hp hj rfl rfl rfl,rfl,rfl⟩

/-- `cmd` is what the client at place `i` waits for. -/
structure Ordered (cmd : Command) (i : Nat) (c : Client) : Prop where
  id : cmd.clientID.toNat = i + 1
  seq : cmd.seq = c.seq
  op : c.cmd.op ≠ .get

private theorem replies_completeIfLeader (w : World) (n : Nat) (cmd : Command) (res : Result) :
    Replies (fun i c r => Ordered cmd i c ∧ r = res) w (w.completeIfLeader n cmd res) ∧
      (w.completeIfLeader n cmd res).nodes = w.nodes := by
  unfold World.completeIfLeader
  split
  · exact ⟨.refl w,rfl⟩
  split
  · exact ⟨.refl w,rfl⟩
  rename_i i c hc
  obtain ⟨hid,hc⟩ := client?_eq_some.mp hc
  split
  · exact ⟨.refl w,rfl⟩
  rename_i hno
  have hp : c.pending = true ∧ ¬ c.cmd.op = .get ∧ c.seq = cmd.seq := by simpa using hno
  obtain ⟨hr,hn,_⟩ := replies_finish (J := fun i c r => Ordered cmd i c ∧ r = res) hc hp.1
    ⟨⟨hid,hp.2.2.symm,hp.2.1⟩,rfl⟩
  exact ⟨hr,hn⟩

/-- The context is that of the read that the client at place `i` waits for. -/
structure Meant (ctx : Bytes) (i : Nat) (c : Client) : Prop where
  length : ctx.length = 16
  id : (UInt64.ofNat (get (ctx.take 8))).toNat = i + 1
  seq : UInt64.ofNat (get (ctx.drop 8)) = c.seq
  op : c.cmd.op = .get

theorem replies_serveRead (w : World) (n : Nat) (rs : ReadState) :
    Replies (fun i c r => Meant rs.requestCtx i c ∧ r = (w.nodes n).sm.read c.cmd.key) w (w.serveRead n rs) ∧
      (w.serveRead n rs).nodes = w.nodes ∧ (w.leads n = true → ∀ i c, (w.serveRead n rs).clients[i]? = some c →
        c.pending = true → ¬ Meant rs.requestCtx i c) := by
  unfold World.serveRead
  split
  · rename_i hno
    refine ⟨.refl w,rfl,fun hl => ?_⟩
    rw [hl] at hno
    cases hno
  split
  · rename_i hlen
    exact ⟨.refl w,rfl,fun _ i c _ _ hm => hlen hm.length⟩
  rename_i hlen
  dsimp only
  split
  · rename_i hnone
    refine ⟨.refl w,rfl,fun _ i c hc _ hm => ?_⟩
    rw [client?_eq_some.mpr ⟨hm.id,hc⟩] at hnone
    cases hnone
  rename_i i c hc
  obtain ⟨hid,hc⟩ := client?_eq_some.mp hc
  split
  · rename_i hno
    refine ⟨.refl w,rfl,fun _ j c' hc' hp hm => ?_⟩
    obtain rfl : j = i := by
      have := hm.id
      omega
    obtain rfl := Option.some.inj (hc.symm.trans hc')
    simp [hp,hm.op,hm.seq] at hno
  rename_i hno
  have hp : c.pending = true ∧ c.cmd.op = .get ∧ c.seq = UInt64.ofNat (get (rs.requestCtx.drop 8)) := by
    simpa using hno
  obtain ⟨hr,hn,hset⟩ := replies_finish (J := fun i c r => Meant rs.requestCtx i c ∧ r = (w.nodes n).sm.read c.cmd.key)
    hc hp.1 ⟨⟨not_not.mp hlen,hid,hp.2.2.symm,hp.2.1⟩,rfl⟩
  refine ⟨hr,hn,fun _ j c' hc' hp' hm => ?_⟩
  obtain rfl : j = i := by
    have := hm.id
    omega
  rw [hset,List.getElem?_set_self (List.getElem?_eq_some_iff.mp hc).1] at hc'
  obtain rfl := Option.some.inj hc'
  cases hp'

/-- The reads of a batch, when all that they need is applied. -/
theorem replies_releaseReads (rds : List ReadState) : ∀ w : World, (∀ rs ∈ rds, rs.index ≤ (w.nodes n).applied) →
    Replies (fun i c r => (∃ rs ∈ rds, Meant rs.requestCtx i c) ∧ r = (w.nodes n).sm.read c.cmd.key) w
        (rds.foldl (World.releaseRead n) w) ∧
      (rds.foldl (World.releaseRead n) w).nodes = w.nodes ∧ (w.leads n = true → ∀ rs ∈ rds, ∀ i c,
        (rds.foldl (World.releaseRead n) w).clients[i]? = some c → c.pending = true → ¬ Meant rs.requestCtx i c) := by
  induction rds with
  | nil => exact fun w _ => ⟨.refl w,rfl,fun _ _ hrs => by cases hrs⟩
  | cons rs rds ih =>
    intro w hle
    have hserve : w.releaseRead n rs = w.serveRead n rs := by
      unfold World.releaseRead
      exact if_pos (hle rs List.mem_cons_self)
    obtain ⟨hr,hn,hdone⟩ := replies_serveRead w n rs
    obtain ⟨hr',hn',hdone'⟩ := ih (w.serveRead n rs) fun rs' hrs' => by
      rw [hn]
      exact hle rs' (List.mem_cons_of_mem _ hrs')
    rw [List.foldl_cons,hserve]
    refine ⟨(hr.mono ?_).trans (hr'.mono ?_),hn'.trans hn,fun hl rs' hrs' i c hc hp => ?_⟩
    · rintro i c r ⟨hm,rfl⟩
      exact ⟨⟨rs,List.mem_cons_self,hm⟩,rfl⟩
    · rintro i c r ⟨⟨rs',hrs',hm⟩,rfl⟩
      rw [hn]
      exact ⟨⟨rs',List.mem_cons_of_mem _ hrs',hm⟩,rfl⟩
    rcases List.mem_cons.mp hrs' with rfl | hrs'
    · exact hdone hl i c (hr'.waiting hc hp) hp
    refine hdone' ?_ rs' hrs' i c hc hp
    unfold World.leads at hl ⊢
    rwa [hn]

theorem servePendingReads_eq (h : (w.nodes n).pendingReads = []) : w.servePendingReads n = w := by
  have hsame : { w.nodes n with pendingReads := [] } = w.nodes n := by
    rw [← h]
  unfold World.servePendingReads
  dsimp only
  rw [h,List.filter_nil,List.filter_nil,List.foldl_nil,hsame,World.setNode,Function.update_eq_self]

/-- What the entry carries, if it carries something, can be decoded. -/
def Decodes (e : Entry) : Prop := e.type = .normal ∧ e.data.length > 0 → ∃ cmd, decodeCommand e.data = .ok cmd

/-- The node with one entry more applied. -/
def NodeState.take (ns : NodeState) (e : Entry) : NodeState :=
  { ns with
    applied := e.index
    sm := (ns.sm.applyEntry e).1
    appliedLog := ns.appliedLog ++ [⟨e.index,e.term,fnv64 e.data⟩] }

/-- The entry has the command that the client waits for, and `res` is its result in the state `sm`. -/
def Wrote (sm : StateMachine) (e : Entry) (i : Nat) (c : Client) (res : Result) : Prop :=
  ∃ cmd sm', command? e = some cmd ∧ sm.apply cmd = some (res,sm') ∧ Ordered cmd i c

theorem replies_applyEntry (ms : List Message) {e : Entry} (hnone : (w.nodes n).pendingReads = [])
    (hidx : (w.nodes n).applied < e.index) (hdec : Decodes e) : Around n ms w (w.applyEntry n e) ∧
      Replies (Wrote (w.nodes n).sm e) w (w.applyEntry n e) ∧ (w.applyEntry n e).nodes n = (w.nodes n).take e := by
  unfold World.applyEntry NodeState.take StateMachine.applyEntry
  rw [if_neg (Nat.not_le.mpr hidx)]
  by_cases hcarry : e.type = .normal ∧ e.data.length > 0
  · rw [if_pos hcarry,if_pos hcarry]
    obtain ⟨cmd,hcmd⟩ := hdec hcarry
    obtain ⟨⟨res,sm⟩,happ⟩ := Option.isSome_iff_exists.mp
      ((w.nodes n).sm.apply_isSome (decodeCommand_ok hcmd).op)
    have hcmd? : command? e = some cmd := by
      unfold command?
      rw [if_pos hcarry,hcmd]
      rfl
    rw [hcmd]
    dsimp only
    rw [happ]
    dsimp only
    set w₁ := w.setNode n { w.nodes n with
      applied := e.index, sm, appliedLog := (w.nodes n).appliedLog ++ [⟨e.index,e.term,fnv64 e.data⟩] } with hw₁
    obtain ⟨hr,hn⟩ := replies_completeIfLeader w₁ n cmd res
    have hns₁ : (w₁.completeIfLeader n cmd res).nodes n = { w.nodes n with
        applied := e.index, sm, appliedLog := (w.nodes n).appliedLog ++ [⟨e.index,e.term,fnv64 e.data⟩] } := by
      rw [hn,hw₁,World.setNode_self]
    rw [servePendingReads_eq (by rw [hns₁]; exact hnone)]
    have hquiet : Replies (Wrote (w.nodes n).sm e) w w₁ := .quiet rfl rfl rfl
    refine ⟨(Around.setNode ..).trans (Aside.completeIfLeader ..).toAround,hquiet.trans (hr.mono ?_),hns₁⟩
    rintro i c r ⟨hord,rfl⟩
    exact ⟨cmd,sm,hcmd?,happ,hord⟩
  · rw [if_neg hcarry,if_neg hcarry,servePendingReads_eq (by rw [World.setNode_self]; exact hnone)]
    exact ⟨.setNode ..,.quiet rfl rfl rfl,w.setNode_self ..⟩

/-- Entries one after another. -/
theorem replies_applyEntries (ms : List Message) (es : List Entry) (hdec : ∀ e ∈ es, Decodes e) : ∀ w : World,
    (w.nodes n).pendingReads = [] → IndexedFrom (w.nodes n).applied es →
    Around n ms w (es.foldl (World.applyEntry n) w) ∧
      Replies (fun i c res => ∃ pre e post, es = pre ++ e :: post ∧ Wrote (pre.foldl NodeState.take (w.nodes n)).sm e i c res)
        w (es.foldl (World.applyEntry n) w) ∧
      (es.foldl (World.applyEntry n) w).nodes n = es.foldl NodeState.take (w.nodes n) := by
  induction es with
  | nil => exact fun w _ _ => ⟨.refl n ms w,.refl w,rfl⟩
  | cons e es ih =>
    intro w hnone hidx
    obtain ⟨har,hr,hns⟩ := replies_applyEntry ms hnone
      (by rw [hidx.head]; exact Nat.lt_succ_self _) (hdec e List.mem_cons_self)
    obtain ⟨har',hr',hns'⟩ := ih (fun e' he' => hdec e' (List.mem_cons_of_mem _ he')) (w.applyEntry n e)
      (by rw [hns]; exact hnone) (by
        rw [hns]
        change IndexedFrom e.index es
        rw [hidx.head]
        exact hidx.tail)
    rw [hns] at hr' hns'
    refine ⟨har.trans har',(hr.mono ?_).trans (hr'.mono ?_),by rw [List.foldl_cons,hns',List.foldl_cons]⟩
    · exact fun i c res hw => ⟨[],e,es,rfl,hw⟩
    · rintro i c res ⟨pre,e',post,rfl,hw⟩
      exact ⟨e :: pre,e',post,rfl,hw⟩

theorem replies_sendMessages (ms : List Message) (w : World) : Replies J w (ms.foldl (World.sendMessage n) w) := by
  refine .foldl (fun w m => ?_) ms w
  unfold World.sendMessage
  split
  · exact .quiet rfl rfl rfl
  obtain ⟨d,net,rng⟩ := w.net.route w.rng n m.dest m
  dsimp only
  split_ifs <;> exact .quiet rfl rfl rfl

theorem sendMessages_nodes (n : Nat) (ms : List Message) (w : World) :
    (ms.foldl (World.sendMessage n) w).nodes = w.nodes := by
  induction ms generalizing w with
  | nil => rfl
  | cons m ms ih =>
    rw [List.foldl_cons,ih]
    unfold World.sendMessage
    split
    · rfl
    obtain ⟨d,net,rng⟩ := w.net.route w.rng n m.dest m
    dsimp only
    split_ifs <;> rfl

theorem replies_acknowledge (w : World) (rd : Ready) : Replies J w (w.acknowledge n rd) := by
  unfold World.acknowledge World.fail
  dsimp only
  split
  · exact .refl w
  · split_ifs <;> exact .quiet rfl rfl rfl

theorem replies_maybeCompact (w : World) : Replies J w (w.maybeCompact n) := by
  unfold World.maybeCompact World.fail
  dsimp only
  split
  · exact .refl w
  split
  · exact .refl w
  split
  · exact .refl w
  split
  · exact .quiet rfl rfl rfl
  · exact .quiet rfl rfl rfl
  · split_ifs <;> exact .quiet rfl rfl rfl

theorem replies_installSnapshot {snap : Option Snapshot} (h : snap.elim (.ok w) (w.installSnapshot n) = .ok w') :
    Replies J w w' := by
  cases snap with
  | none =>
    obtain rfl := Except.ok.inj h
    exact .refl w
  | some snap =>
    rw [Option.elim_some] at h
    unfold World.installSnapshot at h
    split at h
    · split at h
      · cases h
      · obtain rfl := Except.ok.inj h
        exact .quiet rfl rfl rfl
    · obtain rfl := Except.ok.inj h
      exact .quiet rfl rfl rfl

/-- An answer of a node that has applied `xs` and released `rds`. -/
inductive Justified (xs : List Entry) (rds : List ReadState) (i : Nat) (c : Client) (res : Result) : Prop
  | wrote {k : Nat} {e : Entry} (he : xs[k]? = some e) (hw : Wrote (fold (xs.take k)) e i c res)
  | got {rs : ReadState} (hrs : rs ∈ rds) (hle : rs.index ≤ xs.length) (hm : Meant rs.requestCtx i c)
      (hres : res = (fold xs).read c.cmd.key)

end Parallax.Simulation
