import Parallax.Sim.Chronicle
import Parallax.Sim.Refines

/-! The clients of the simulator against the log of the cluster. The books of a world hold the events of its clients and
a committed log that explains them; whatever the world goes through, they can be kept. -/
namespace Parallax.Simulation
open Kv Sim Cluster Consensus Consensus.History BigEndian
open StateMachine (fold command? commandsOf apply_result)
open Linear (Event)
variable {S : Setup} {H H' : Hist} {n k i : Nat} {w w' : World} {c c' : State (serving S).app} {cl : Client}

/-- A committed log, the calls and results of the clients, and what the recorder has of each operation. -/
structure Books where
  log : List Entry
  hist : ClientHistory
  floor : UInt64 × UInt64 → Nat
  point : UInt64 × UInt64 → Nat
  card : UInt64 × UInt64 → Lin.Operation
  num : UInt64 × UInt64 → Nat

variable {B B' : Books}

/-- The context of the read with this name. -/
def tokenOf (id : UInt64 × UInt64) : Bytes := put 8 id.1.toNat ++ put 8 id.2.toNat

private theorem ofNat_get_put (x : UInt64) : UInt64.ofNat (get (put 8 x.toNat)) = x := by
  rw [get_put x.toNat_lt,UInt64.ofNat_toNat]

private theorem take_tokenOf (id : UInt64 × UInt64) :
    (tokenOf id).take 8 = put 8 id.1.toNat ∧ (tokenOf id).drop 8 = put 8 id.2.toNat :=
  ⟨List.take_left' (length_put ..),List.drop_left' (length_put ..)⟩

theorem tokenOf_inj {id id' : UInt64 × UInt64} (h : tokenOf id = tokenOf id') : id = id' := by
  have h₁ := congrArg (List.take 8) h
  have h₂ := congrArg (List.drop 8) h
  rw [(take_tokenOf id).1,(take_tokenOf id').1] at h₁
  rw [(take_tokenOf id).2,(take_tokenOf id').2] at h₂
  refine Prod.ext ?_ ?_
  · rw [← ofNat_get_put id.1,h₁,ofNat_get_put]
  · rw [← ofNat_get_put id.2,h₂,ofNat_get_put]

private theorem meant_token (hid : cl.id.toNat = i + 1) (hop : cl.cmd.op = .get) : Meant (World.token cl) i cl := by
  have htok : World.token cl = tokenOf (cl.id,cl.seq) := rfl
  refine ⟨?_,?_,?_,hop⟩
  · rw [htok,tokenOf,List.length_append,length_put,length_put]
  · rw [htok,(take_tokenOf _).1,ofNat_get_put,hid]
  · rw [htok,(take_tokenOf _).2,ofNat_get_put]

private theorem token_of_meant {ctx : Bytes} (hm : Meant ctx i cl) (hid : cl.id.toNat = i + 1) : ctx = World.token cl := by
  have hback : ∀ bs : Bytes, bs.length = 8 → put 8 (UInt64.ofNat (get bs)).toNat = bs := by
    intro bs hlen
    have hlt : get bs < 2 ^ 64 := by
      have := get_lt bs
      rwa [hlen] at this
    rw [UInt64.toNat_ofNat_of_lt' hlt,← hlen,put_get]
  have hlen := hm.length
  have hid' : UInt64.ofNat (get (ctx.take 8)) = cl.id := UInt64.toNat_inj.mp (hm.id.trans hid.symm)
  rw [World.token,← hid',← hm.seq,hback _ (by rw [List.length_take]; omega),hback _ (by rw [List.length_drop]; omega),
    List.take_append_drop]

/-- What the books have of the client at place `i`. -/
structure Enrolled (k : Nat) (B : Books) (i : Nat) (cl : Client) : Prop where
  id : cl.id.toNat = i + 1
  seq : cl.seq.toNat ≤ k
  last : ∀ id op, .call id op ∈ B.hist → id.1 = cl.id → id.2 ≤ cl.seq
  waiting : cl.pending = true → ∃ op, .call (cl.id,cl.seq) op ∈ B.hist ∧ (∀ res, .ret (cl.id,cl.seq) res ∉ B.hist) ∧
    cl.cmd = op.command cl.id cl.seq ∧ cl.histID = B.num (cl.id,cl.seq)

theorem Enrolled.mono {k' : Nat} (h : Enrolled k B i cl) (hk : k ≤ k') : Enrolled k' B i cl :=
  { h with seq := h.seq.trans hk }

/-- The recorder and the clients are as the books have them. -/
structure Keeping (k : Nat) (w : World) (B : Books) : Prop where
  explains : Explains B.log B.floor B.point B.hist
  chronicles : Lin.Chronicles B.hist B.card B.num w.hist
  clock : 0 ≤ w.now
  timely : w.now < 2 ^ 63 → Lin.Timely B.hist B.card w.now
  clients : ∀ i cl, w.clients[i]? = some cl → Enrolled k B i cl

/-- The same log and the same calls. -/
structure Books.Same (B B' : Books) : Prop where
  log : B'.log = B.log
  floor : B'.floor = B.floor
  calls : ∀ id op, .call id op ∈ B'.hist ↔ .call id op ∈ B.hist

theorem Books.Same.refl (B : Books) : B.Same B := ⟨rfl,rfl,fun _ _ => .rfl⟩

theorem Books.Same.trans {B'' : Books} (h : B.Same B') (h' : B'.Same B'') : B.Same B'' :=
  ⟨h'.log.trans h.log,h'.floor.trans h.floor,fun id op => (h'.calls id op).trans (h.calls id op)⟩

/-- The log answers the operation of the client with `res`. -/
def Due (B : Books) (cl : Client) (res : Result) : Prop :=
  ∀ op, .call (cl.id,cl.seq) op ∈ B.hist → cl.cmd = op.command cl.id cl.seq →
    ∃ point, Answers B.log (B.floor (cl.id,cl.seq)) point (cl.id,cl.seq) op res

theorem Due.same {res : Result} (h : Due B cl res) (hs : B.Same B') : Due B' cl res := by
  intro op hc hcmd
  rw [hs.log,hs.floor]
  exact h op ((hs.calls _ _).mp hc) hcmd

/-- Different places, different names. -/
theorem Enrolled.ne {k' j : Nat} {B' : Books} {cl' : Client} (h : Enrolled k B i cl) (h' : Enrolled k' B' j cl') (hij : i ≠ j) :
    cl.id ≠ cl'.id := by
  intro heq
  have hid := h.id
  rw [heq,h'.id] at hid
  omega

namespace Keeping

theorem mono {k' : Nat} (h : Keeping k w B) (hk : k ≤ k') : Keeping k' w B :=
  { h with clients := fun i cl hi => (h.clients i cl hi).mono hk }

/-- Nothing but the recorder, the clients and the clock matters. -/
theorem congr (h : Keeping k w B) (hc : w'.clients = w.clients) (hh : w'.hist = w.hist) (hn : w'.now = w.now) :
    Keeping k w' B :=
  ⟨h.explains,hh ▸ h.chronicles,hn ▸ h.clock,hn ▸ h.timely,hc ▸ h.clients⟩

theorem turnTo (h : Keeping k w B) {t : Loop.Sight} (ht : w.now ≤ t.now) : Keeping k (w.turnTo t) B :=
  { h with
    clock := Int.le_trans h.clock ht
    timely := fun hlt => (h.timely (Int.lt_of_le_of_lt ht hlt)).mono ht }

theorem grow (h : Keeping k w B) {L : List Entry} (hL : B.log <+: L) (hc : ∀ e ∈ L, ∀ cmd, command? e = some cmd →
    ∃ id op, .call id op ∈ B.hist ∧ ¬ op.IsGet ∧ cmd = op.command id.1 id.2) : Keeping k w { B with log := L } :=
  { h with
    explains := h.explains.grow hL hc
    clients := fun i cl hi => ⟨(h.clients i cl hi).id,(h.clients i cl hi).seq,(h.clients i cl hi).last,(h.clients i cl hi).waiting⟩ }

/-- Clients may change their hints and count their attempts. -/
theorem touch (h : Keeping k w B) (hh : w'.hist = w.hist) (hn : w'.now = w.now)
    (hc : ∀ (i : Nat) (cl' : Client), w'.clients[i]? = some cl' → ∃ cl : Client, w.clients[i]? = some cl ∧
      ∃ hint attempt, cl' = { cl with leaderHint := hint, attempt }) : Keeping k w' B := by
  refine ⟨h.explains,hh ▸ h.chronicles,hn ▸ h.clock,hn ▸ h.timely,fun i cl' hi => ?_⟩
  obtain ⟨cl,hcl,_,_,rfl⟩ := hc i cl' hi
  have he := h.clients i cl hcl
  exact ⟨he.id,he.seq,he.last,he.waiting⟩

theorem moment (h : Keeping k w B) (hlt : w.now < 2 ^ 63) : (Int64.ofInt w.now).toInt = w.now :=
  Int64.toInt_ofInt_of_le (Int.le_trans (by decide) h.clock) hlt

theorem reply (h : Keeping k w B) (hi : w.clients[i]? = some cl) (hp : cl.pending = true) {res : Result} (hdue : Due B cl res)
    (hc : w'.clients = w.clients.set i { cl with pending := false })
    (hh : w'.hist = w.hist.complete cl.histID res (Int64.ofInt w.now)) (hn : w'.now = w.now) :
    ∃ B', B.Same B' ∧ Keeping k w' B' := by
  have he := h.clients i cl hi
  obtain ⟨op,hcall,hnr,hcmd,hnum⟩ := he.waiting hp
  obtain ⟨point,ha⟩ := hdue op hcall hcmd
  have hcalls : ∀ id op, .call id op ∈ B.hist ++ [Event.ret (cl.id,cl.seq) res] ↔ .call id op ∈ B.hist := by
    intro id op
    simp
  refine ⟨{ B with
    hist := B.hist ++ [.ret (cl.id,cl.seq) res]
    point := Function.update B.point (cl.id,cl.seq) point
    card := Function.update B.card (cl.id,cl.seq)
      { B.card (cl.id,cl.seq) with output := res, ret := Int64.ofInt w.now } },⟨rfl,rfl,hcalls⟩,?_⟩
  refine ⟨h.explains.ret hcall hnr ha,?_,hn ▸ h.clock,fun hlt => ?_,fun j cl' hj => ?_⟩
  · rw [hh,hnum]
    exact h.chronicles.complete hcall hnr res _
  · rw [hn] at hlt ⊢
    have hm := h.moment hlt
    have ht := h.timely hlt
    rw [← hm] at ht
    have hdone := ht.complete hnr res
    rw [hm] at hdone
    exact hdone
  rw [hc,List.getElem?_set] at hj
  split_ifs at hj with hij hlen
  · obtain rfl := Option.some.inj hj
    subst hij
    exact ⟨he.id,he.seq,fun id op' hc' => he.last id op' ((hcalls id op').mp hc'),fun hno => by cases hno⟩
  have he' := h.clients j cl' hj
  refine ⟨he'.id,he'.seq,fun id op' hc' => he'.last id op' ((hcalls id op').mp hc'),fun hp' => ?_⟩
  obtain ⟨op',hc',hnr',hrest⟩ := he'.waiting hp'
  refine ⟨op',List.mem_append_left _ hc',fun res' hr => ?_,hrest⟩
  rcases List.mem_append.mp hr with hr | hr
  · exact hnr' res' hr
  · have heq : (cl'.id = cl.id ∧ cl'.seq = cl.seq) ∧ res' = res := by simpa using hr
    exact he.ne he' hij heq.1.1.symm

theorem replies {J : Nat → Client → Result → Prop} (hr : Replies J w w') : ∀ {B : Books}, Keeping k w B →
    (∀ i cl res, J i cl res → Due B cl res) → ∃ B', B.Same B' ∧ Keeping k w' B' := by
  induction hr with
  | quiet hc hh hn => exact fun h _ => ⟨_,.refl _,h.congr hc hh hn⟩
  | reply hi hp hj hc hh hn => exact fun h hdue => h.reply hi hp (hdue _ _ _ hj) hc hh hn
  | trans _ _ ih ih' =>
    intro B h hdue
    obtain ⟨B₁,hs₁,h₁⟩ := ih h hdue
    obtain ⟨B₂,hs₂,h₂⟩ := ih' h₁ fun i cl res hj => (hdue i cl res hj).same hs₁
    exact ⟨B₂,hs₁.trans hs₂,h₂⟩

end Keeping

/-- A no-op, or the command of a write that was called. -/
def Carried (h : ClientHistory) (e : Entry) : Prop := e.type = .noop ∨ ∃ id op, .call id op ∈ h ∧ ¬ op.IsGet ∧
  (op.command id.1 id.2).Encodable ∧ e.data = encodeCommand (op.command id.1 id.2)

theorem Carried.mono {h h' : ClientHistory} {e : Entry} (hc : Carried h e) (hs : ∀ id op, .call id op ∈ h → .call id op ∈ h') :
    Carried h' e :=
  hc.imp_right fun ⟨id,op,hcall,hrest⟩ => ⟨id,op,hs id op hcall,hrest⟩

theorem Carried.called {h : ClientHistory} {e : Entry} (hc : Carried h e) {cmd : Command} (hcmd : command? e = some cmd) :
    ∃ id op, .call id op ∈ h ∧ ¬ op.IsGet ∧ cmd = op.command id.1 id.2 := by
  unfold command? at hcmd
  split at hcmd
  · rename_i hn
    rcases hc with hno | ⟨id,op,hcall,hw,henc,hdata⟩
    · cases hn.1.symm.trans hno
    · rw [hdata,decode_encodeCommand henc] at hcmd
      exact ⟨id,op,hcall,hw,(Option.some.inj hcmd).symm⟩
  · cases hcmd

private theorem carried_add {h : ClientHistory} {l es : List Entry} {t : Nat} {e : Cluster.Event} (hl : ∀ x ∈ l, Carried h x)
    (hadd : Adds e es) (hp : ∀ n i m, e.input? = some (n,i) → i.message? = some m → m.type = .propose →
      ∀ x ∈ m.entries, Carried h { x with type := .normal }) :
    ∀ x ∈ l ++ Raft.stampEntries t l.length es, Carried h x := by
  intro x hx
  rcases List.mem_append.mp hx with hx | hx
  · exact hl x hx
  obtain ⟨x₀,hx₀,hty,hdata⟩ := stampEntries_payload hx
  suffices hc : Carried h x₀ by
    unfold Carried at hc ⊢
    rwa [hty,hdata]
  cases hadd with
  | noop => exact .inl (List.mem_singleton.mp hx₀ ▸ rfl)
  | proposed he hm hpr =>
    obtain ⟨y,hy,rfl⟩ := List.mem_map.mp hx₀
    exact hp _ _ _ he hm hpr y hy

/-- The cluster was asked for nothing but the operations of these clients, and will answer those that wait. -/
structure Vouched (S : Setup) (cls : List Client) (c : State (serving S).app) (H : Hist) (B : Books) : Prop where
  mannered : Mannered (serving S) c H
  carried : Traced (fun l => ∀ e ∈ l, Carried B.hist e) c H
  asked : ∀ n t ctx, Asked c.hist n t ctx → ∃ id op, .call id op ∈ B.hist ∧ ctx = tokenOf id
  reading : ∀ (i : Nat) (cl : Client), cls[i]? = some cl → cl.pending = true → cl.cmd.op = .get →
    Owed (serving S) c (World.token cl) ∧
      ∀ n ∈ S.peers, ∀ T, Vouches (serving S) H c n T (B.floor (cl.id,cl.seq)) (World.token cl)

namespace Vouched
variable {cls cls' : List Client}

theorem same (h : Vouched S cls c H B) (hf : B'.floor = B.floor) (hc : ∀ id op, .call id op ∈ B.hist → .call id op ∈ B'.hist) :
    Vouched S cls c H B' where
  mannered := h.mannered
  carried := ⟨fun n hn e he => (h.carried.log n hn e he).mono hc,fun m hm hty e he => (h.carried.net m hm hty e he).mono hc⟩
  asked n t ctx ha := by
    obtain ⟨id,op,hcall,hctx⟩ := h.asked n t ctx ha
    exact ⟨id,op,hc id op hcall,hctx⟩
  reading := hf ▸ h.reading

/-- Fewer clients wait. -/
theorem fewer (h : Vouched S cls c H B) (hc : ∀ (i : Nat) (cl' : Client), cls'[i]? = some cl' → cl'.pending = true →
    ∃ cl : Client, cls[i]? = some cl ∧ cl.pending = true ∧ cl'.cmd = cl.cmd ∧ cl'.id = cl.id ∧ cl'.seq = cl.seq) : Vouched S cls' c H B := by
  refine ⟨h.mannered,h.carried,h.asked,fun i cl' hi hp hget => ?_⟩
  obtain ⟨cl,hcl,hp',hcmd,hid,hseq⟩ := hc i cl' hi hp
  have htok : World.token cl' = World.token cl := by
    unfold World.token
    rw [hid,hseq]
  rw [htok,hid,hseq]
  exact h.reading i cl hcl hp' (hcmd ▸ hget)

theorem next {e : Cluster.Event} (h : Vouched S cls c H B) (hI : Inv (serving S) c H) (hpol : Polite c e)
    (hch : Change (serving S) H H' c e (c.next (serving S) e)) (hI' : Inv (serving S) (c.next (serving S) e) H')
    (hprop : ∀ n i m, e.input? = some (n,i) → i.message? = some m → m.type = .propose →
      ∀ x ∈ m.entries, Carried B.hist { x with type := .normal })
    (hask : ∀ n m, e.input? = some (n,.step m) → m.type = .readIndex → ∃ id op, .call id op ∈ B.hist ∧ m.context = tokenOf id)
    (hno : ∀ (j : Nat) (cl : Client), cls[j]? = some cl → cl.pending = true → cl.cmd.op = .get → ∀ n i p, e.input? = some (n,i) →
      (c.host n).vol = some p → (i.run p.raft).state = .leader → ∀ rs ∈ (i.run p.raft).readStates,
      rs.requestCtx ≠ World.token cl) : Vouched S cls (c.next (serving S) e) H' B where
  mannered := h.mannered.next hI hpol hch hI'
  carried := h.carried.next hI hch (fun _ _ hp hl e he => hl e (hp.subset he)) (fun _ _ hp hl e he => hl e (hp.subset he))
    fun _ _ _ hadd hl => carried_add hl hadd hprop
  asked n t ctx ha := by
    rcases ha.of_next hch with ha | ⟨_,m,_,he,hm,hctx,_⟩
    · exact h.asked n t ctx ha
    · exact hctx ▸ hask n m he hm
  reading j cl hj hp hget := by
    obtain ⟨howed,hv⟩ := h.reading j cl hj hp hget
    exact ⟨howed.next h.mannered hI hpol hch (hno j cl hj hp hget),fun n hn T => (hv n hn T).next hI hpol hch hI'⟩

/-- An event without an input. -/
theorem step {e : Cluster.Event} (h : Vouched S cls c H B) (hI : Inv (serving S) c H) (he : c.Enabled (serving S) e)
    (hnone : e.input? = none) : Vouched S cls (c.next (serving S) e) H B := by
  obtain ⟨hch,hI'⟩ := Refines.change_local hI he hnone
  have hout : ∀ {x : Nat × Input}, e.input? ≠ some x := fun hx => by rw [hnone] at hx; cases hx
  exact h.next hI (fun _ _ _ hx => absurd hx hout) hch hI' (fun _ _ _ hx => absurd hx hout) (fun _ _ hx => absurd hx hout)
    fun _ _ _ _ _ _ _ _ hx => absurd hx hout

end Vouched

/-- The books of the world `w`, which stands for the state `c` of the cluster. -/
structure Accounts (S : Setup) (k : Nat) (w : World) (c : State (serving S).app) (H : Hist) (B : Books) : Prop
    extends Keeping k w B, Vouched S w.clients c H B where
  committed : ∃ t, H.CommittedBy t B.log

theorem Keeping.due (h : Keeping k w B) {L xs : List Entry} {rds : List ReadState} (hpre : xs <+: L)
    (hcarried : ∀ e ∈ L, ∀ cmd, command? e = some cmd → ∃ id op, .call id op ∈ B.hist ∧ ¬ op.IsGet ∧ cmd = op.command id.1 id.2)
    (hi : w.clients[i]? = some cl)
    (hread : cl.cmd.op = .get → ∀ rs ∈ rds, rs.requestCtx = World.token cl → B.floor (cl.id,cl.seq) ≤ rs.index)
    {res : Result} (hj : Justified xs rds i cl res) : Due { B with log := L } cl res := by
  have he := h.clients i cl hi
  intro op hcall hcmd
  cases hj with
  | @got rs hrs hle hm hres =>
    have hfloor := hread hm.op rs hrs (token_of_meant hm he.id)
    obtain ⟨key,rfl⟩ : ∃ key, op = .get key := by
      have hop := hm.op
      rw [hcmd] at hop
      cases op with
      | get key => exact ⟨key,rfl⟩
      | put | delete | cas => cases hop
    refine ⟨xs.length,?_⟩
    have hkey : cl.cmd.key = key := by
      rw [hcmd]
      rfl
    rw [hres,hkey,List.prefix_iff_eq_take.mp hpre,List.length_take_of_le hpre.length_le]
    exact .read key (hfloor.trans hle) hpre.length_le
  | @wrote j e hej hw =>
    obtain ⟨cmd,sm,hce,happ,hord⟩ := hw
    have hname : (cmd.clientID,cmd.seq) = (cl.id,cl.seq) :=
      Prod.ext (UInt64.toNat_inj.mp (hord.id.trans he.id.symm)) hord.seq
    obtain ⟨hname₁,hname₂⟩ := Prod.mk.inj hname
    have hjL : L[j]? = some e := by
      obtain ⟨ws,rfl⟩ := hpre
      rw [List.getElem?_append_left (List.getElem?_eq_some_iff.mp hej).1,hej]
    have hlen := (List.getElem?_eq_some_iff.mp hjL).1
    have htake : xs.take j = L.take j := by
      obtain ⟨ws,rfl⟩ := hpre
      rw [List.take_append_of_le_length (Nat.le_of_lt (List.getElem?_eq_some_iff.mp hej).1)]
    rw [htake] at happ
    -- Entries behind `e` carry no later operation of the client.
    have hlast : ∀ c' ∈ commandsOf (L.take j), c'.clientID = cmd.clientID → c'.seq ≤ cmd.seq := by
      intro c' hc' heq
      obtain ⟨e',he',hcmd'⟩ := List.mem_filterMap.mp hc'
      obtain ⟨id₁,op₁,hcall₁,_,rfl⟩ := hcarried e' (List.mem_of_mem_take he') c' hcmd'
      rw [Operation.command_clientID,hname₁] at heq
      rw [Operation.command_seq,hname₂]
      exact he.last id₁ op₁ hcall₁ heq
    obtain ⟨zs,e',cmd',hpre',hex,hcl,hseq⟩ := apply_result hce happ hlast
    rw [← take_succ_of_getElem? hjL] at hpre'
    obtain ⟨id₁,op₁,hcall₁,hw₁,rfl⟩ := hcarried e' (List.mem_of_mem_take (hpre'.subset (by simp))) cmd' hex.command
    rw [Operation.command_clientID,hname₁] at hcl
    rw [Operation.command_seq,hname₂] at hseq
    obtain rfl : id₁ = (cl.id,cl.seq) := Prod.ext hcl hseq
    rw [h.explains.wf.call_unique hcall hcall₁]
    exact ⟨j + 1,.write hw₁ hlen hpre' hex⟩

theorem Keeping.gather (h : Keeping k w B) {t u : Nat} {xs : List Entry} (hI : Inv (serving S) c H) (hL : H.CommittedBy t B.log)
    (hx : H.CommittedBy u xs) (hc : ∀ e ∈ xs, Carried B.hist e) : ∃ v L, H.CommittedBy v L ∧ B.log <+: L ∧ xs <+: L ∧
      ∀ e ∈ L, ∀ cmd, command? e = some cmd → ∃ id op, .call id op ∈ B.hist ∧ ¬ op.IsGet ∧ cmd = op.command id.1 id.2 := by
  rcases hL.comparable hI.good.inv hx with hle | hle
  · exact ⟨u,xs,hx,hle,List.prefix_rfl,fun e he _ hcmd => (hc e he).called hcmd⟩
  · exact ⟨t,B.log,hL,List.prefix_rfl,hle,h.explains.carried⟩

theorem Accounts.fed {inp : Input} (h : Accounts S k w c H B) (hI : Inv (serving S) c H) (hn : n ∈ S.peers)
    (hadm : c.Admits n inp) (hpol : Polite c (.input n inp true)) (hfed : Refines.Fed n inp w w' H H' c c')
    (hprop : ∀ m, inp.message? = some m → m.type = .propose → ∀ x ∈ m.entries, Carried B.hist { x with type := .normal })
    (hask : ∀ m, inp = .step m → m.type = .readIndex → ∃ id op, .call id op ∈ B.hist ∧ m.context = tokenOf id) :
    ∃ B', Accounts S k w' c' H' B' := by
  have hch := hfed.change
  have hin : ∀ {q j}, (Cluster.Event.input n inp true).input? = some (q,j) → q = n ∧ j = inp := fun he => by
    obtain ⟨rfl,rfl⟩ := Prod.mk.inj (Option.some.inj he)
    exact ⟨rfl,rfl⟩
  have hprop' : ∀ q j m, (Cluster.Event.input n inp true).input? = some (q,j) → j.message? = some m → m.type = .propose →
      ∀ x ∈ m.entries, Carried B.hist { x with type := .normal } := fun q j m he => (hin he).2 ▸ hprop m
  have hask' : ∀ q m, (Cluster.Event.input n inp true).input? = some (q,.step m) → m.type = .readIndex →
      ∃ id op, .call id op ∈ B.hist ∧ m.context = tokenOf id := fun q m he => hask m (hin he).2.symm
  obtain ⟨t,hL⟩ := h.committed
  -- The client side first.
  suffices hside : ∃ B', B'.floor = B.floor ∧ (∀ id op, .call id op ∈ B.hist → .call id op ∈ B'.hist) ∧ Keeping k w' B' ∧
      (∃ t, H'.CommittedBy t B'.log) ∧ (∀ (j : Nat) (cl : Client), w'.clients[j]? = some cl → cl.pending = true →
        w.clients[j]? = some cl ∧ ∀ p, (c.host n).vol = some p → (inp.run p.raft).state = .leader →
          ∀ rs ∈ (inp.run p.raft).readStates, ¬ Meant rs.requestCtx j cl) by
    obtain ⟨B',hfloor,hcalls,hkeep,hcom,hwait⟩ := hside
    have hv : Vouched S w'.clients c H B := h.toVouched.fewer fun j cl hj hp => ⟨cl,(hwait j cl hj hp).1,hp,rfl,rfl,rfl⟩
    have hv₁ : Vouched S w'.clients (c.next (serving S) (.input n inp true)) H' B := by
      refine hv.next hI hpol hch hfed.inv hprop' hask' fun j cl hj hp hget q i p he hvol hl rs hrs heq => ?_
      obtain ⟨rfl,rfl⟩ := hin he
      obtain ⟨hj',hno⟩ := hwait j cl hj hp
      exact hno p hvol hl rs hrs (heq ▸ meant_token (h.clients j cl hj').id hget)
    have hv₂ := hv₁.same hfloor hcalls
    rcases hfed.feeds with rfl | rfl
    · exact ⟨B',hkeep,hv₂,hcom⟩
    · exact ⟨B',hkeep,hv₂.step hfed.inv hn rfl,hcom⟩
  cases hvol : (c.host n).vol with
  | none =>
    rw [hfed.down hvol]
    exact ⟨B,rfl,fun _ _ hc => hc,h.toKeeping,⟨t,hL.ext hch.ext⟩,fun j cl hj _ => ⟨hj,fun p hp => by cases hp⟩⟩
  | some p =>
    obtain ⟨ha,htells⟩ := hfed.tells p hvol
    have htr := h.carried.next hI hch (fun _ _ hp hl e he => hl e (hp.subset he))
      (fun _ _ hp hl e he => hl e (hp.subset he)) fun _ _ _ hadd hl => carried_add hl hadd hprop'
    obtain ⟨v,L,hcom,hpre,hxs,hcalled⟩ := h.toKeeping.gather hfed.inv (hL.ext hch.ext) ha.ok.log.committed
      fun e he => htr.log n hn e (List.mem_of_mem_take he)
    have hdue : ∀ j cl res, (Justified ((H'.log n).take (inp.run p.raft).raftLog.committed) (inp.run p.raft).readStates j cl res ∧
        w.clients[j]? = some cl ∧ cl.pending = true) → Due { B with log := L } cl res := by
      rintro j cl res ⟨hj,hcl,hp⟩
      refine h.toKeeping.due hxs hcalled hcl (fun hget rs hrs heq => ?_) hj
      by_cases hl : (inp.run p.raft).state = .leader
      · exact ((h.reading j cl hcl hp hget).2 n hn _).released hI hn hpol rfl hvol hadm ha hch.ext hl rfl hrs heq
      · rw [(hI.posts hn hvol hadm).quiet (.inr hl),((hI.hosts n hn).peer p hvol).reads] at hrs
        cases hrs
    obtain ⟨B',hs,hkeep⟩ := (h.toKeeping.grow hpre hcalled).replies htells.replies.awaited hdue
    refine ⟨B',hs.floor,fun id op => (hs.calls id op).mpr,hkeep,⟨v,hs.log ▸ hcom⟩,fun j cl hj hp =>
      ⟨htells.replies.waiting hj hp,fun p' hp' hl rs hrs => ?_⟩⟩
    obtain rfl := Option.some.inj hp'
    exact htells.served hl rs hrs j cl hj hp

end Parallax.Simulation
