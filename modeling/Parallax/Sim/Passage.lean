import Parallax.Sim.Accounts

/-! What a world goes through. Inputs, crashes, starts and the doings of clients take a world that stands for a state of
the cluster to another one, and the books can be kept meanwhile. -/
namespace Parallax.Simulation
open Kv Sim Cluster Consensus Consensus.History
open Linear (Event)
open Loop (Call)
variable {S : Setup} {H H' : Hist} {n k q i : Nat} {w w' : World} {c c' : State (serving S).app} {cl : Client} {B : Books}

/-- What was sent stays, and nodes that are down stay down. -/
structure Onward (c c' : State (serving S).app) : Prop where
  net : c.net ⊆ c'.net
  down : ∀ n, (c.host n).vol = none → (c'.host n).vol = none

theorem Onward.refl (c : State (serving S).app) : Onward c c := ⟨List.Subset.refl _,fun _ hn => hn⟩

theorem Onward.trans {c'' : State (serving S).app} (h : Onward c c') (h' : Onward c' c'') : Onward c c'' :=
  ⟨List.Subset.trans h.net h'.net,fun n hn => h'.down n (h.down n hn)⟩

private theorem onward_input (n : Nat) (inp : Input) (c : State (serving S).app) :
    Onward c (c.next (serving S) (.input n inp true)) := by
  unfold State.next
  dsimp only
  split
  · exact .refl c
  rename_i p hp
  have hdown : ∀ (hst : Host (serving S).app) q, (c.host q).vol = none → ((c.setHost n hst).host q).vol = none := by
    intro hst q hq
    by_cases hqn : q = n
    · rw [hqn,hp] at hq
      cases hq
    · rw [State.setHost]
      exact (congrArg Host.vol (Function.update_of_ne hqn _ _)).trans hq
  split
  · exact ⟨List.Subset.refl _,hdown _⟩
  · exact ⟨List.subset_append_right _ _,hdown _⟩

private theorem onward_compact (n : Nat) (c : State (serving S).app) : Onward c (c.next (serving S) (.compact n)) := by
  refine ⟨List.Subset.refl _,fun q hq => ?_⟩
  by_cases hqn : q = n
  · subst hqn
    have hself : (c.next (serving S) (.compact q)).host q = (c.host q).compact := Function.update_self ..
    rw [hself,Host.compact,hq]
    exact hq
  · exact (congrArg Host.vol (Function.update_of_ne hqn _ _)).trans hq

theorem Refines.Feeds.onward {inp : Input} (h : Refines.Feeds n inp c c') : Onward c c' := by
  rcases h with rfl | rfl
  · exact onward_input n inp c
  · exact (onward_input n inp c).trans (onward_compact n _)

/-- From one world to another: it stands for a state of the cluster again, of which it is known by how much logs (`k'`) and
sequence numbers (`q'`) have grown at most. -/
structure Passage (S : Setup) (q q' k' : Nat) (w : World) (c : State (serving S).app) (H : Hist) (w' : World)
    (c' : State (serving S).app) (H' : Hist) : Prop where
  onward : Onward c c'
  refines : Refines S k' w' c' H'
  paced : Paced w → Paced w'
  now : w'.now = w.now
  cfg : w'.cfg = w.cfg
  net : ∃ hooked, w'.net = { w.net with hooked }
  alive : ∀ j, (w.nodes j).up?.isSome = true → (w'.nodes j).up?.isSome = true
  books : ∀ B, Accounts S q w c H B → ∃ B', Accounts S q' w' c' H' B'

theorem Passage.trans {q' q'' k' k'' : Nat} {w'' : World} {c'' : State (serving S).app} {H'' : Hist}
    (h : Passage S q q' k' w c H w' c' H') (h' : Passage S q' q'' k'' w' c' H' w'' c'' H'') :
    Passage S q q'' k'' w c H w'' c'' H'' where
  onward := h.onward.trans h'.onward
  refines := h'.refines
  paced hp := h'.paced (h.paced hp)
  now := h'.now.trans h.now
  cfg := h'.cfg.trans h.cfg
  net := by
    obtain ⟨_,hn⟩ := h.net
    obtain ⟨hooked,hn'⟩ := h'.net
    exact ⟨hooked,by rw [hn',hn]⟩
  alive j hj := h'.alive j (h.alive j hj)
  books B hB := by
    obtain ⟨B',hB'⟩ := h.books B hB
    exact h'.books B' hB'

theorem Accounts.mono {q' : Nat} (h : Accounts S q w c H B) (hq : q ≤ q') : Accounts S q' w c H B :=
  { h with toKeeping := h.toKeeping.mono hq }

theorem Passage.fits {q' k' : Nat} (h : Passage S q q' k' w c H w' c' H') (hf : w.Fits) : w'.Fits := by
  obtain ⟨_,hnet⟩ := h.net
  exact hf.congr (by rw [hnet]) h.cfg

theorem Passage.mono {q' q'' k' k'' : Nat} (h : Passage S q q' k' w c H w' c' H') (hq : q' ≤ q'') (hk : k' ≤ k'') :
    Passage S q q'' k'' w c H w' c' H' where
  onward := h.onward
  refines := h.refines.mono hk
  paced := h.paced
  now := h.now
  cfg := h.cfg
  net := h.net
  alive := h.alive
  books B hB := by
    obtain ⟨B',hB'⟩ := h.books B hB
    exact ⟨B',hB'.mono hq⟩

theorem Accounts.turnTo {t : Loop.Sight} (h : Accounts S q w c H B) (ht : w.now ≤ t.now) : Accounts S q (w.turnTo t) c H B :=
  ⟨h.toKeeping.turnTo ht,h.toVouched,h.committed⟩

theorem Refines.touch (href : Refines S k w' c H) (hpaced : Paced w → Paced w') (hh : w'.hist = w.hist) (hn : w'.now = w.now)
    (hcfg : w'.cfg = w.cfg) (hnet : w'.net = w.net) (hnodes : w'.nodes = w.nodes)
    (hc : ∀ (i : Nat) (cl' : Client), w'.clients[i]? = some cl' → ∃ cl : Client, w.clients[i]? = some cl ∧
      ∃ hint attempt, cl' = { cl with leaderHint := hint, attempt }) (q : Nat) : Passage S q q k w c H w' c H where
  onward := .refl c
  refines := href
  paced := hpaced
  now := hn
  cfg := hcfg
  net := ⟨_,hnet⟩
  alive j hj := hnodes ▸ hj
  books B hB := by
    refine ⟨B,hB.toKeeping.touch hh hn hc,hB.toVouched.fewer fun j cl' hj hp => ?_,hB.committed⟩
    obtain ⟨cl,hcl,_,_,rfl⟩ := hc j cl' hj
    exact ⟨cl,hcl,hp,rfl,rfl,rfl⟩

/-- Clients, recorder and clock stay as they are. -/
theorem Refines.aside (href : Refines S k w' c H) (hpaced : Paced w → Paced w') (hc : w'.clients = w.clients)
    (hh : w'.hist = w.hist) (hn : w'.now = w.now) (hcfg : w'.cfg = w.cfg) (hnet : w'.net = w.net)
    (hnodes : w'.nodes = w.nodes) (q : Nat) : Passage S q q k w c H w' c H :=
  href.touch hpaced hh hn hcfg hnet hnodes (fun _ cl hi => ⟨cl,hc ▸ hi,_,_,rfl⟩) q

theorem Refines.schedules (h : Refines S k w c H) {after : Loop.VirtualTime} (hafter : Paced w → 0 ≤ after) {p : Payload}
    (hp : p.From []) (q : Nat) : Passage S q q k w c H (w.schedule after p) c H :=
  (h.schedule after (hp.mono (List.nil_subset _))).aside (Aside.schedule 0 [] w hafter hp).paced rfl rfl rfl rfl rfl rfl q

theorem Refines.hints (h : Refines S k w c H) {j : Nat} (hw : Hinted j w w') (q : Nat) : Passage S q q k w c H w' c H := by
  rcases hw with rfl | ⟨x,rfl⟩
  · exact h.aside (fun hp => hp) rfl rfl rfl rfl rfl rfl q
  refine Refines.touch (w := w) (h.setHint j x) (fun hp => ⟨hp.net,hp.think,hp.tick,hp.election,hp.calls⟩) rfl rfl
    rfl rfl rfl (fun l cl' hl => ?_) q
  have hl : (w.clients.modify j fun c => { c with leaderHint := x })[l]? = some cl' := hl
  rw [List.getElem?_modify] at hl
  split_ifs at hl
  · obtain ⟨cl,hcl,rfl⟩ := Option.map_eq_some_iff.mp hl
    exact ⟨cl,hcl,_,_,rfl⟩
  · exact ⟨cl',by simpa using hl,_,_,rfl⟩

theorem Refines.inputs (h : Refines S k w c H) (hk : k + 1 < 2 ^ 64) (n : Nat) {inp : Input} (hadm : c.Admits n inp)
    (hreq : ∀ m, inp.message? = some m → m.type = .propose → m.entries = [])
    (hread : ∀ m, inp.message? = some m → m.type ≠ .readIndex) (q : Nat) :
    ∃ H' c', Passage S q q (k + 1) w c H (w.input n inp) c' H' := by
  by_cases hn : n ∈ S.peers
  · obtain ⟨H',c',hfed,h'⟩ := h.input hn hadm (fun m hm hty => .inl (hreq m hm hty)) hk
    refine ⟨H',c',hfed.feeds.onward,h',hfed.paced,hfed.now,hfed.cfg,hfed.net,hfed.alive,fun B hB => hB.fed h.inv hn hadm ?_ hfed ?_ ?_⟩
    · intro v m p he _ hm
      obtain ⟨rfl,rfl⟩ := Prod.mk.inj (Option.some.inj he)
      exact absurd hm (hread m rfl)
    · intro m hm hty x hx
      rw [hreq m hm hty] at hx
      cases hx
    · rintro m rfl hm
      exact absurd hm (hread m rfl)
  · rw [h.input_absent hn]
    exact ⟨H,c,(h.aside (fun hp => hp) rfl rfl rfl rfl rfl rfl q).mono le_rfl (Nat.le_succ k)⟩

theorem Refines.deliver (h : Refines S k w c H) (hk : k + 1 < 2 ^ 64) {m : Message} (hm : m ∈ c.net) (q : Nat) :
    ∃ H' c', Passage S q q (k + 1) w c H (w.input m.dest (.step m)) c' H' := by
  have hcontent := (h.inv.net m hm).content
  have hadm : c.Admits m.dest (.step m) := .inr (.inr ⟨hm,rfl⟩)
  refine h.inputs hk m.dest hadm (fun m' hm' hty => ?_) (fun m' hm' hty => ?_) q
  · obtain rfl := Option.some.inj hm'
    simp [Content,hty] at hcontent
  · obtain rfl := Option.some.inj hm'
    simp [Content,hty] at hcontent

theorem Refines.tick (h : Refines S k w c H) (hk : k + 1 < 2 ^ 64) (n q : Nat) :
    ∃ H' c', Passage S q q (k + 1) w c H (w.input n .tick) c' H' := by
  have hadm : c.Admits n .tick := trivial
  exact h.inputs hk n hadm (fun _ hm => by cases hm) (fun _ hm => by cases hm) q

/-- The drain that follows a start. -/
theorem Refines.drains (h : Refines S k w c H) (hk : k + 1 < 2 ^ 64) {r : Raft} (hup : (w.nodes n).up? = some r)
    (hfail : r.failed = false) (q : Nat) : ∃ H' c', Passage S q q (k + 1) w c H (w.drain n) c' H' := by
  rw [drain_eq_input hup hfail]
  have hadm : c.Admits n (.step { type := .propose }) := .inl rfl
  refine h.inputs hk n hadm (fun m hm _ => ?_) (fun m hm hty => ?_) q
  · obtain rfl := Option.some.inj hm
    rfl
  · obtain rfl := Option.some.inj hm
    cases hty

/-- A crash or a start. -/
theorem Accounts.step {e : Cluster.Event} (h : Accounts S q w c H B) (hI : Inv (serving S) c H)
    (he : c.Enabled (serving S) e) (hnone : e.input? = none) (hc : w'.clients = w.clients)
    (hh : w'.hist = w.hist) (hn : w'.now = w.now) : Accounts S q w' (c.next (serving S) e) H B :=
  ⟨h.toKeeping.congr hc hh hn,hc ▸ h.toVouched.step hI he hnone,h.committed⟩

/-- The request of a client. -/
def request (cl : Client) : Message :=
  if cl.cmd.op = .get then { type := .readIndex, context := World.token cl }
  else { type := .propose, entries := [{ data := encodeCommand cl.cmd }] }

private theorem request_of_get (h : cl.cmd.op = .get) :
    request cl = { type := .readIndex, context := World.token cl } := if_pos h

private theorem request_of_write (h : cl.cmd.op ≠ .get) :
    request cl = { type := .propose, entries := [{ data := encodeCommand cl.cmd }] } := if_neg h

private theorem request_type (cl : Client) : (request cl).type = .propose ∨ (request cl).type = .readIndex := by
  unfold request
  split
  · exact .inr rfl
  · exact .inl rfl

private theorem request_read (hm : (request cl).type = .readIndex) :
    cl.cmd.op = .get ∧ (request cl).context = World.token cl := by
  by_cases hget : cl.cmd.op = .get
  · exact ⟨hget,by rw [request_of_get hget]⟩
  · rw [request_of_write hget] at hm
    cases hm

private theorem request_propose (hm : (request cl).type = .propose) :
    cl.cmd.op ≠ .get ∧ (request cl).entries = [{ data := encodeCommand cl.cmd }] := by
  by_cases hget : cl.cmd.op = .get
  · rw [request_of_get hget] at hm
    cases hm
  · exact ⟨hget,by rw [request_of_write hget]⟩

theorem Refines.offers (h : Refines S k w c H) (hk : k + 1 < 2 ^ 64) (hi : w.clients[i]? = some cl) (hp : cl.pending = true)
    (ids : List Nat) (q : Nat) : ∃ H' c', Passage S q q (k + 1) w c H (w.offer i (request cl) ids) c' H' := by
  have hadm : ∀ id, c.Admits id (.step (request cl)) := fun id => (request_type cl).elim .inl fun hm => .inr (.inl hm)
  have hpeer : ∀ id r, (w.nodes id).up? = some r → id ∈ S.peers ∧ ∃ p, (c.host id).vol = some p ∧ p.raft = r := by
    intro id r hup
    have hnode := NodeState.node_of_up? hup
    have hid : id ∈ S.peers := by
      by_contra hno
      rw [h.absent id hno] at hnode
      cases hnode
    obtain ⟨p,hvol,hruns⟩ := (h.mirrors id hid).up r hup
    exact ⟨hid,p,hvol,Option.some.inj (hruns.node.symm.trans hnode)⟩
  have henc := h.requests cl (List.mem_of_getElem? hi) hp
  obtain ⟨w₁,hw₁,hcases⟩ := offer_cases (request_type cl) i ids w fun id r hup => by
    obtain ⟨hid,p,hvol,rfl⟩ := hpeer id r hup
    obtain ⟨_,_,ha,_⟩ := h.inv.inputAt hid (hadm id) true hvol
    exact ha.ok.failed
  have hpass := h.hints hw₁ q
  rcases hcases with heq | ⟨id,r,hup,hok,heq⟩
  · rw [heq]
    exact ⟨H,c,hpass.mono le_rfl (Nat.le_succ k)⟩
  have hnodes : w₁.nodes = w.nodes := by
    rcases hw₁ with rfl | ⟨x,rfl⟩ <;> rfl
  rw [hnodes] at hup
  obtain ⟨hid,p,hvol,rfl⟩ := hpeer id r hup
  obtain ⟨H',c',hfed,h'⟩ := hpass.refines.input hid (hadm id) (fun m hm hty => by
    obtain rfl := Option.some.inj hm
    exact .inr ⟨cl.cmd,henc,(request_propose hty).2⟩) hk
  rw [heq]
  refine ⟨H',c',hpass.trans ⟨hfed.feeds.onward,h',hfed.paced,hfed.now,hfed.cfg,hfed.net,hfed.alive,fun B hB => ?_⟩⟩
  -- The client as the node finds it.
  obtain ⟨cl₁,hcl₁,hp₁,hcmd₁,hid₁,hseq₁⟩ : ∃ cl₁ : Client, w₁.clients[i]? = some cl₁ ∧ cl₁.pending = true ∧
      cl₁.cmd = cl.cmd ∧ cl₁.id = cl.id ∧ cl₁.seq = cl.seq := by
    rcases hw₁ with rfl | ⟨x,rfl⟩
    · exact ⟨cl,hi,hp,rfl,rfl,rfl⟩
    · refine ⟨{ cl with leaderHint := x },?_,hp,rfl,rfl,rfl⟩
      simp [World.setHint,hi]
  have htok : World.token cl₁ = World.token cl := by
    unfold World.token
    rw [hid₁,hseq₁]
  obtain ⟨op,hcall,_,hcmd,_⟩ := (hB.clients i cl₁ hcl₁).waiting hp₁
  refine hB.fed h.inv hid (hadm id) ?_ hfed (fun m hm hty x hx => ?_) fun m heq hm => ?_
  · intro v m p' he hvol' hm
    obtain ⟨rfl,heq⟩ := Prod.mk.inj (Option.some.inj he)
    obtain rfl := Input.step.inj heq
    obtain rfl := Option.some.inj (hvol.symm.trans hvol')
    obtain ⟨hget,hctx⟩ := request_read hm
    refine ⟨leader_of_read hm hok,fun ha => ?_⟩
    rw [hctx] at ha ⊢
    rw [← htok] at ha ⊢
    exact (hB.reading i cl₁ hcl₁ hp₁ (hcmd₁ ▸ hget)).1 _ hid p hvol (leader_of_read hm hok) ha
  · obtain rfl := Option.some.inj hm
    obtain ⟨hget,hes⟩ := request_propose hty
    rw [hes] at hx
    obtain rfl := List.mem_singleton.mp hx
    refine .inr ⟨(cl₁.id,cl₁.seq),op,hcall,fun hg => hget ?_,?_,?_⟩
    · rw [← hcmd₁,hcmd]
      cases op with
      | get key => rfl
      | put | delete | cas => exact hg.elim
    · rw [← hcmd,hcmd₁]
      exact henc
    · rw [← hcmd,hcmd₁]
  obtain rfl := Input.step.inj heq
  obtain ⟨_,hctx⟩ := request_read hm
  refine ⟨(cl₁.id,cl₁.seq),op,hcall,?_⟩
  rw [hctx,← htok]
  rfl

theorem Refines.submits (cl : Client) (h : Refines S k (w.setClient i { cl with attempt := cl.attempt + 1 }) c H)
    (hk : k + 1 < 2 ^ 64) (hi : i < w.clients.length) (hp : cl.pending = true) (q : Nat) :
    ∃ H' c', Passage S q q (k + 1) (w.setClient i { cl with attempt := cl.attempt + 1 }) c H (w.submit i cl) c' H' := by
  have hcl : (w.setClient i { cl with attempt := cl.attempt + 1 }).clients[i]? = some { cl with attempt := cl.attempt + 1 } :=
    List.getElem?_set_self hi
  obtain ⟨H',c',hpass⟩ := h.offers hk hcl hp
    ((w.setClient i { cl with attempt := cl.attempt + 1 }).candidateOrder { cl with attempt := cl.attempt + 1 }) q
  have hwait : ∀ w' : World, Paced w' → 0 ≤ w'.retryTimeout := fun w' hw =>
    Int.mul_nonneg (Int.mul_nonneg hw.election (by decide)) (Int.le_of_lt hw.tick)
  have hend := hpass.trans (hpass.refines.schedules (hwait _) (p := .retry i cl.seq (cl.attempt + 1)) trivial q)
  refine ⟨H',c',?_⟩
  unfold World.submit
  unfold request at hend
  by_cases hget : cl.cmd.op = .get
  · rw [if_pos hget] at hend
    simp only [if_pos hget]
    exact hend
  rw [if_neg hget] at hend
  simp only [if_neg hget]
  exact hend

theorem Refines.retry (h : Refines S k w c H) (hk : k + 1 < 2 ^ 64) (i : Nat) (seq : UInt64) (attempt q : Nat) :
    ∃ H' c', Passage S q q (k + 1) w c H (w.retry i seq attempt) c' H' := by
  have hstay : Passage S q q (k + 1) w c H w c H := (h.aside (fun hp => hp) rfl rfl rfl rfl rfl rfl q).mono le_rfl (Nat.le_succ k)
  unfold World.retry
  split
  · exact ⟨H,c,hstay⟩
  rename_i cl hcl
  split
  · rename_i hp
    have henc := h.requests cl (List.mem_of_getElem? hcl) hp.1
    have hi := (List.getElem?_eq_some_iff.mp hcl).1
    have hset : Passage S q q k w c H (w.setClient i { cl with attempt := cl.attempt + 1 }) c H := by
      refine Refines.touch (w := w) (h.setClient i { cl with attempt := cl.attempt + 1 } fun _ => henc)
        (fun hp => ⟨hp.net,hp.think,hp.tick,hp.election,hp.calls⟩) rfl rfl rfl rfl rfl (fun j cl' hj => ?_) q
      have hj : (w.clients.set i { cl with attempt := cl.attempt + 1 })[j]? = some cl' := hj
      rw [List.getElem?_set] at hj
      split_ifs at hj with hij
      · obtain rfl := Option.some.inj hj
        exact ⟨cl,hij ▸ hcl,_,_,rfl⟩
      · exact ⟨cl',hj,_,_,rfl⟩
    obtain ⟨H',c',hpass⟩ := Refines.submits cl hset.refines hk hi hp.1 q
    exact ⟨H',c',hset.trans hpass⟩
  · exact ⟨H,c,hstay⟩

private theorem itoa_length {m : Nat} (h : m < 2 ^ 64) : (World.itoa m).length ≤ 20 := by
  rw [World.itoa,List.length_map]
  exact (Nat.length_toDigits_le_iff (by decide) (by decide)).mpr (h.trans (by decide))

theorem genCommand_encodable (hkeys : w.cfg.workload.keys ≤ 2 ^ 63) (cl : Client) : (w.genCommand cl).1.Encodable := by
  have hid := itoa_length cl.id.toNat_lt
  have hkey : w.drawKey.1.length < 2 ^ 32 := by
    unfold World.drawKey
    dsimp only
    split_ifs with hone
    · change 2 < 2 ^ 32
      decide
    have hlt : w.rng.stream 0 % w.cfg.workload.keys < w.cfg.workload.keys := Nat.mod_lt _ (by omega)
    have hlen := itoa_length (m := w.rng.stream 0 % w.cfg.workload.keys) (by omega)
    rw [Rng.intn,if_neg (by omega)]
    change (World.itoa (w.rng.stream 0 % w.cfg.workload.keys)).length + 1 < _
    omega
  have hvalue : (World.valueFor cl).length < 2 ^ 32 := by
    have hseq := itoa_length cl.seq.toNat_lt
    unfold World.valueFor
    simp only [List.length_append,List.length_cons,List.length_nil]
    omega
  have hexpect : ([118,45] ++ World.itoa cl.id.toNat).length < 2 ^ 32 := by
    rw [List.length_append]
    simp only [List.length_cons,List.length_nil]
    omega
  have hnone : Short none := by decide
  unfold World.genCommand
  dsimp only
  split_ifs
  · exact ⟨by simp,hkey,hvalue,hnone⟩
  · exact ⟨by simp,hkey,hnone,hnone⟩
  · exact ⟨by simp,hkey,hvalue,hexpect⟩
  · exact ⟨by simp,hkey,hvalue,hnone⟩
  · exact ⟨by simp,hkey,hnone,hnone⟩

private theorem genCommand_panicked (w : World) (cl : Client) : (w.genCommand cl).2.panicked = w.rng.panicked := by
  have hkey : w.drawKey.2.panicked = w.rng.panicked := by
    unfold World.drawKey
    dsimp only
    split_ifs with hone
    · rfl
    · exact w.rng.intn_panicked (by omega)
  unfold World.genCommand
  dsimp only
  split_ifs <;> exact hkey

private theorem genCommand_eq (w : World) (cl : Client) : ∃ op :
    Operation, (w.genCommand cl).1 = op.command cl.id cl.seq := by
  unfold World.genCommand
  dsimp only
  split_ifs
  · exact ⟨.put _ _,rfl⟩
  · exact ⟨.delete _,rfl⟩
  · exact ⟨.cas _ _ _,rfl⟩
  · exact ⟨.cas _ _ _,rfl⟩
  · exact ⟨.get _,rfl⟩

/-- The books after a call. -/
def Books.call (B : Books) (id : UInt64 × UInt64) (op : Operation) (num : Nat) (t : Int64) : Books :=
  { B with
    hist := B.hist ++ [.call id op]
    floor := Function.update B.floor id B.log.length
    card := Function.update B.card id { clientID := id.1, input := op.command id.1 id.2, call := t, ret := -1 }
    num := Function.update B.num id num }

theorem Books.call_of_mem {id id' : UInt64 × UInt64} {op op' : Operation} {num : Nat} {t : Int64}
    (h : .call id' op' ∈ (B.call id op num t).hist) : .call id' op' ∈ B.hist ∨ id' = id ∧ op' = op := by
  rcases List.mem_append.mp h with h | h
  · exact .inl h
  · exact .inr (by simpa using h)

theorem Books.ret_of_mem {id id' : UInt64 × UInt64} {op : Operation} {res : Result} {num : Nat} {t : Int64}
    (h : .ret id' res ∈ (B.call id op num t).hist) : .ret id' res ∈ B.hist := by
  simpa [Books.call] using h

/-- The client as it waits for its next operation. -/
def Client.calling (cl : Client) (op : Operation) (histID : Nat) : Client :=
  { cl with seq := cl.seq + 1, attempt := 1, cmd := op.command cl.id (cl.seq + 1), histID, pending := true }

theorem Enrolled.fresh (h : Enrolled q B i cl) (hq : q + 1 < 2 ^ 64) : cl.seq < cl.seq + 1 ∧ (cl.seq + 1).toNat ≤ q + 1 ∧
    ∀ op, .call (cl.id,cl.seq + 1) op ∉ B.hist := by
  have hadd : (cl.seq + 1).toNat = cl.seq.toNat + 1 := by
    rw [UInt64.toNat_add]
    have := h.seq
    simp only [UInt64.toNat_one]
    omega
  have hlt : cl.seq < cl.seq + 1 := by
    rw [UInt64.lt_iff_toNat_lt,hadd]
    exact Nat.lt_succ_self _
  refine ⟨hlt,?_,fun op hc => ?_⟩
  · rw [hadd]
    exact Nat.succ_le_succ h.seq
  · exact absurd (h.last _ op hc rfl) (UInt64.not_le.mpr hlt)

theorem Keeping.call (h : Keeping q w B) (hq : q + 1 < 2 ^ 64) (hi : w.clients[i]? = some cl) (op : Operation)
    (hc : w'.clients = w.clients.set i (cl.calling op w.hist.nextID))
    (hh : w'.hist = (w.hist.invoke cl.id (op.command cl.id (cl.seq + 1)) (Int64.ofInt w.now)).2) (hn : w'.now = w.now) :
    Keeping (q + 1) w' (B.call (cl.id,cl.seq + 1) op w.hist.nextID (Int64.ofInt w.now)) := by
  have he := h.clients i cl hi
  obtain ⟨hlt,hle,hnew⟩ := he.fresh hq
  have hwf := h.explains.wf
  refine ⟨h.explains.call hnew op,?_,hn ▸ h.clock,fun hnow => ?_,fun j cl' hj => ?_⟩
  · rw [hh]
    exact h.chronicles.invoke hwf hnew op _
  · rw [hn] at hnow ⊢
    have hm := h.moment hnow
    have ht := h.timely hnow
    rw [← hm] at ht
    have hcall := ht.invoke hwf hnew op
    rw [hm] at hcall
    exact hcall
  rw [hc,List.getElem?_set] at hj
  split_ifs at hj with hij hlen
  · obtain rfl := Option.some.inj hj
    subst hij
    refine ⟨he.id,hle,fun id op' hc' heq => ?_,fun _ => ⟨op,List.mem_append_right _ (List.mem_singleton_self _),fun res hr => ?_,rfl,?_⟩⟩
    · rcases Books.call_of_mem hc' with hc' | ⟨rfl,_⟩
      · exact UInt64.le_trans (he.last id op' hc' heq) (UInt64.le_of_lt hlt)
      · exact UInt64.le_refl _
    · obtain ⟨op',hc'⟩ := hwf.called (Books.ret_of_mem hr)
      exact hnew op' hc'
    have hnum : Function.update B.num (cl.id,cl.seq + 1) w.hist.nextID (cl.id,cl.seq + 1) = w.hist.nextID :=
      Function.update_self ..
    exact hnum.symm
  have he' := h.clients j cl' hj
  have hne : cl.id ≠ cl'.id := he.ne he' hij
  refine ⟨he'.id,he'.seq.trans (Nat.le_succ q),fun id op' hc' heq => ?_,fun hp => ?_⟩
  · rcases Books.call_of_mem hc' with hc' | ⟨rfl,_⟩
    · exact he'.last id op' hc' heq
    · exact absurd heq hne
  obtain ⟨op',hc',hnr,hcmd,hnum⟩ := he'.waiting hp
  refine ⟨op',List.mem_append_left _ hc',fun res hr => hnr res (Books.ret_of_mem hr),hcmd,hnum.trans ?_⟩
  have hother : (cl'.id,cl'.seq) ≠ (cl.id,cl.seq + 1) := fun heq => hne (Prod.mk.inj heq).1.symm
  exact (Function.update_of_ne hother _ _).symm

theorem Vouched.call (h : Vouched S w.clients c H B) (hk : Keeping q w B) (hI : Inv (serving S) c H)
    (hcom : ∃ t, H.CommittedBy t B.log) (hq : q + 1 < 2 ^ 64) (hi : w.clients[i]? = some cl) (op : Operation)
    (hc : w'.clients = w.clients.set i (cl.calling op w.hist.nextID)) (num : Nat) (t : Int64) :
    Vouched S w'.clients c H (B.call (cl.id,cl.seq + 1) op num t) := by
  have he := hk.clients i cl hi
  obtain ⟨_,_,hnew⟩ := he.fresh hq
  have hcalls : ∀ id op', .call id op' ∈ B.hist → .call id op' ∈ (B.call (cl.id,cl.seq + 1) op num t).hist :=
    fun id op' hc' => List.mem_append_left _ hc'
  refine ⟨h.mannered,⟨fun n hn e he => (h.carried.log n hn e he).mono hcalls,
    fun m hm hty e he => (h.carried.net m hm hty e he).mono hcalls⟩,fun n t' ctx ha => ?_,fun j cl' hj hp hget => ?_⟩
  · obtain ⟨id,op',hc',hctx⟩ := h.asked n t' ctx ha
    exact ⟨id,op',hcalls id op' hc',hctx⟩
  rw [hc,List.getElem?_set] at hj
  split_ifs at hj with hij hlen
  · obtain rfl := Option.some.inj hj
    have hfresh : ∀ n T, ¬ Asked c.hist n T (tokenOf (cl.id,cl.seq + 1)) := by
      intro n T ha
      obtain ⟨id,op',hc',htok⟩ := h.asked n T _ ha
      exact hnew op' (tokenOf_inj htok ▸ hc')
    obtain ⟨u,hL⟩ := hcom
    have hfloor : (B.call (cl.id,cl.seq + 1) op num t).floor (cl.id,cl.seq + 1) = B.log.length := Function.update_self ..
    refine ⟨fun n hn p _ _ ha => absurd ha (hfresh n _),fun n hn T => ?_⟩
    exact h.mannered.vouches hI hn (hfresh n T) hL (Nat.le_of_eq hfloor)
  have hne : cl.id ≠ cl'.id := he.ne (hk.clients j cl' hj) hij
  have hother : (cl'.id,cl'.seq) ≠ (cl.id,cl.seq + 1) := fun heq => hne (Prod.mk.inj heq).1.symm
  have hfloor : (B.call (cl.id,cl.seq + 1) op num t).floor (cl'.id,cl'.seq) = B.floor (cl'.id,cl'.seq) :=
    Function.update_of_ne hother _ _
  rw [hfloor]
  exact h.reading j cl' hj hp hget

theorem Refines.issue (h : Refines S k w c H) (hk : k + 1 < 2 ^ 64) (i : Nat) (hq : q + 1 < 2 ^ 64) :
    ∃ H' c', Passage S q (q + 1) (k + 1) w c H (w.issue i) c' H' := by
  have hstay : Passage S q (q + 1) (k + 1) w c H w c H :=
    (h.aside (fun hp => hp) rfl rfl rfl rfl rfl rfl q).mono (Nat.le_succ q) (Nat.le_succ k)
  unfold World.issue
  split
  · exact ⟨H,c,hstay⟩
  rename_i cl hcl
  split
  · exact ⟨H,c,hstay⟩
  have henc := genCommand_encodable h.keys { cl with seq := cl.seq + 1, attempt := 0 }
  obtain ⟨op,hop⟩ := genCommand_eq w { cl with seq := cl.seq + 1, attempt := 0 }
  dsimp only
  rw [hop] at henc ⊢
  have hrng := genCommand_panicked w { cl with seq := cl.seq + 1, attempt := 0 }
  generalize (w.genCommand { cl with seq := cl.seq + 1, attempt := 0 }).2 = rng at hrng
  have hside : ∀ hist, Refines S k { w with rng, hist } c H := fun hist =>
    (h.redraw rfl fun _ => hrng).beside h.requests h.deliveries
  have hcall : Passage S q (q + 1) k w c H (World.setClient (World.recordControl { w with
      rng, hist := (w.hist.invoke cl.id (op.command cl.id (cl.seq + 1)) (Int64.ofInt w.now)).2 }) i
      (cl.calling op w.hist.nextID)) c H := by
    refine ⟨.refl c,(hside _).recordControl.setClient i _ fun _ => henc,fun hp => ?_,rfl,rfl,⟨_,rfl⟩,fun _ hj => hj,fun B hB => ?_⟩
    · refine ⟨hp.net,hp.think,hp.tick,hp.election,fun after p hmem => ?_⟩
      exact hp.calls after p (by simpa [World.setClient,World.recordControl] using hmem)
    · exact ⟨_,hB.toKeeping.call hq hcl op rfl rfl rfl,hB.toVouched.call hB.toKeeping h.inv hB.committed hq hcl op rfl _ _,
        hB.committed⟩
  obtain ⟨H',c',hpass⟩ := Refines.submits { cl with
    seq := cl.seq + 1, attempt := 0, pending := true, cmd := op.command cl.id (cl.seq + 1), histID := w.hist.nextID }
    hcall.refines hk (List.getElem?_eq_some_iff.mp hcl).1 rfl (q + 1)
  exact ⟨H',c',hcall.trans hpass⟩

/-- An event fires; a delivery is one of a message that was sent. -/
theorem Refines.fire (h : Refines S k w c H) (hk : k + 1 < 2 ^ 64) {p : Payload}
    (hp : ∀ src dst m, p = .deliver src dst m → m ∈ c.net ∧ m.dest = dst) (hq : q + 1 < 2 ^ 64) :
    ∃ H' c', Passage S q (q + 1) (k + 1) w c H (w.fire p) c' H' := by
  have hlater : ∀ {w' : World}, (∃ H' c', Passage S q q (k + 1) w c H w' c' H') →
      ∃ H' c', Passage S q (q + 1) (k + 1) w c H w' c' H' :=
    fun ⟨H',c',hpass⟩ => ⟨H',c',hpass.mono (Nat.le_succ q) le_rfl⟩
  cases p with
  | deliver src dst m =>
    obtain ⟨hm,rfl⟩ := hp src dst m rfl
    exact hlater (h.deliver hk hm q)
  | client i => exact h.issue hk i hq
  | retry i seq attempt => exact hlater (h.retry hk i seq attempt q)
  | fault _ => exact hlater ⟨H,c,(h.aside (fun hp => hp) rfl rfl rfl rfl rfl rfl q).mono le_rfl (Nat.le_succ k)⟩

end Parallax.Simulation
