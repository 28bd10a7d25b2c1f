import Parallax.Client.Model
import Parallax.Drive.Ledger

/-! Linearizability. The committed log explains what clients see: an operation that was called is committed later, and
its result is given when the committed log holds what explains it. -/
namespace Parallax.Client
open Kv Drive StateMachine
open Cluster (Setup Hist)
variable {S : Setup} {H : Hist} {maxSegmentSize : Nat} {w : World} {c : Cluster.State (serving S).app}
  {L : List Entry} {floor point : ClientKey → Nat} {h : ClientHistory} {id : ClientKey} {op : Operation} {res : Result}

/-- The payloads that may be in a log: no-ops, and the commands of the writes that were called. -/
def Proposed (h : ClientHistory) (t : EntryType) (b : Bytes) : Prop :=
  t = .noop ∨ ∃ id op, .call id op ∈ h ∧ ¬ op.IsGet ∧ b = encodeCommand (op.command id.1 id.2)

def Wants (h : ClientHistory) (id : ClientKey) (key : Bytes) : Prop := .call id (.get key) ∈ h

theorem Proposed.carried {e : Entry} (hp : Proposed h e.type e.data) (hf : Disk.EntryFits e) {cmd : Command}
    (hc : command? e = some cmd) : ∃ id op, .call id op ∈ h ∧ ¬ op.IsGet ∧ cmd = op.command id.1 id.2 := by
  unfold command? at hc
  split at hc
  · rename_i hn
    rcases hp with hno | ⟨id,op,hcall,hw,hdata⟩
    · cases hn.1.symm.trans hno
    have hlen : e.data.length < 2 ^ 32 := by
      have := hf.2.2
      rw [Disk.length_encodeEntry] at this
      unfold Disk.sanityMaxPayload at this
      omega
    rw [hdata] at hlen hc
    rw [Operation.decode_command (Operation.fits_of_length hlen) hw] at hc
    exact ⟨id,op,hcall,hw,(Option.some.inj hc).symm⟩
  · cases hc

/-- What holds in every world that can be reached: a cluster behind the site, with the history `H`, and a committed log
`L` that explains the clients' history and all results given. -/
structure Accounts (S : Setup) (w : World) (c : Cluster.State (serving S).app) (H : Hist) (L : List Entry)
    (floor point : ClientKey → Nat) : Prop extends Ledger S w.site c H L floor (Wants w.hist) where
  stems : Cluster.Stems (Proposed w.hist) c H
  /-- An operation that its client waits for is the client's last. -/
  waiting : ∀ id ∈ w.waiting, (∃ op, .call id op ∈ w.hist) ∧ (∀ res, .ret id res ∉ w.hist) ∧
    ∀ id' op', .call id' op' ∈ w.hist → id'.1 = id.1 → id'.2 ≤ id.2
  explains : Explains L floor point w.hist

theorem Accounts.init (S : Setup) : Accounts S {} {} Consensus.History.empty [] (fun _ => 0) fun _ => 0 where
  toLedger := .init S _ _
  stems := ⟨fun _ _ e he => (by cases he),fun m hm => by cases hm⟩
  waiting _ hid := by cases hid
  explains := .init _ _

theorem Accounts.call (h : Accounts S w c H L floor point) (hc : w.MayCall id) (op : Operation) :
    Accounts S (w.next maxSegmentSize S (.call id op)) c H L (Function.update floor id L.length) point := by
  have hnew : ∀ op', Linear.Event.call id op' ∉ w.hist := fun op' hcall =>
    UInt64.lt_irrefl _ (hc.2 _ (mem_calls.mpr hcall) rfl)
  have hwants : ∀ id' key, Wants w.hist id' key → Wants (w.hist ++ [.call id op]) id' key := fun _ _ hw =>
    List.mem_append_left _ hw
  have hfloor : ∀ id' key, Wants w.hist id' key → Function.update floor id L.length id' = floor id' := by
    intro id' key hw
    have hne : id' ≠ id := fun heq => hnew _ (heq ▸ hw)
    exact Function.update_of_ne hne _ _
  refine ⟨h.toLedger.mono hwants hfloor,h.stems.mono fun t b hp => ?_,fun id' hid' => ?_,h.explains.call hnew op⟩
  · exact hp.imp_right fun ⟨id',op',hcall,hrest⟩ => ⟨id',op',List.mem_append_left _ hcall,hrest⟩
  rcases List.mem_cons.mp hid' with rfl | hin
  · refine ⟨⟨op,by simp [World.next]⟩,fun res hr => ?_,fun id₁ op₁ hcall heq => ?_⟩
    · have hr : Linear.Event.ret id' res ∈ w.hist := by simpa [World.next] using hr
      obtain ⟨op',hcall⟩ := h.explains.wf.called hr
      exact hnew op' hcall
    have hcall : .call id₁ op₁ ∈ w.hist ∨ (id₁ = id' ∧ op₁ = op) := by simpa [World.next] using hcall
    rcases hcall with hcall | ⟨rfl,_⟩
    · exact UInt64.le_of_lt (hc.2 _ (mem_calls.mpr hcall) heq)
    · exact UInt64.le_refl _
  obtain ⟨⟨op',hcall⟩,hnr,hlast⟩ := h.waiting id' hin
  refine ⟨⟨op',List.mem_append_left _ hcall⟩,fun res hr => hnr res (by simpa [World.next] using hr),
    fun id₁ op₁ hcall₁ heq => ?_⟩
  have hcall₁ : .call id₁ op₁ ∈ w.hist ∨ (id₁ = id ∧ op₁ = op) := by simpa [World.next] using hcall₁
  rcases hcall₁ with hcall₁ | ⟨rfl,_⟩
  · exact hlast id₁ op₁ hcall₁ heq
  · exact absurd heq.symm (hc.1 id' hin)

theorem Accounts.answers (h : Accounts S w c H L floor point) (hid : id ∈ w.waiting) (hcall : .call id op ∈ w.hist)
    {r : Reply} (hr : r ∈ w.site.replies) (hop : r.op = id) (hres : r.answer = .result res) :
    Answers L (floor id) r.applied id op res := by
  have hx := h.explains
  obtain ⟨hle,hgiven⟩ := h.replies r hr res hres
  unfold Reply.op at hop
  cases hreq : r.resp.req with
  | read key op' =>
    rw [hreq] at hgiven hop
    obtain rfl : op' = id := hop
    obtain ⟨hw,hfloor,rfl⟩ := hgiven
    rw [hx.wf.call_unique hcall hw]
    exact .read key hfloor hle
  | propose asked =>
    rw [hreq] at hgiven hop
    obtain ⟨ys,e,cmd,m',htake,hcmd,hkey,happ⟩ := hgiven
    have hop : (cmd.clientID,cmd.seq) = id := hkey.trans hop
    have hmem : ∀ e' ∈ ys ++ [e], e' ∈ L := fun e' he' => List.mem_of_mem_take (htake ▸ he')
    -- Entries behind `e` carry no later operation of the client.
    have hlast : ∀ c' ∈ commandsOf ys, c'.clientID = cmd.clientID → c'.seq ≤ cmd.seq := by
      intro c' hc' heq
      obtain ⟨e',he',hcmd'⟩ := List.mem_filterMap.mp hc'
      obtain ⟨id₁,op₁,hcall₁,_,rfl⟩ := hx.carried e' (hmem e' (List.mem_append_left _ he')) c' hcmd'
      have hkey₁ : cmd.clientID = id.1 ∧ cmd.seq = id.2 := by
        rw [← hop]
        exact ⟨rfl,rfl⟩
      rw [Operation.command_clientID,hkey₁.1] at heq
      rw [Operation.command_seq,hkey₁.2]
      exact (h.waiting id hid).2.2 id₁ op₁ hcall₁ heq
    obtain ⟨zs,e',cmd',hpre,hex,hcl,hseq⟩ := apply_result hcmd happ hlast
    have he' : e' ∈ ys ++ [e] := hpre.subset (by simp)
    obtain ⟨id₁,op₁,hcall₁,hw,rfl⟩ := hx.carried e' (hmem e' he') cmd' hex.command
    rw [Operation.command_clientID] at hcl
    rw [Operation.command_seq] at hseq
    obtain rfl : id₁ = id := by
      rw [← hop]
      exact Prod.ext hcl hseq
    rw [hx.wf.call_unique hcall hcall₁]
    exact .write hw hle (htake ▸ hpre) hex

theorem Accounts.ret (h : Accounts S w c H L floor point) (hr : w.MayReturn id res) :
    ∃ point', Accounts S (w.next maxSegmentSize S (.ret id res)) c H L floor point' := by
  obtain ⟨hid,r,hr,hop,hres⟩ := hr
  obtain ⟨⟨op,hcall⟩,hnr,_⟩ := h.waiting id hid
  have hold : ∀ {id' op'}, Linear.Event.call id' op' ∈ w.hist ++ [.ret id res] → .call id' op' ∈ w.hist := by
    intro id' op' hc
    simpa using hc
  have hwants : ∀ id' key, Wants w.hist id' key → Wants (w.hist ++ [.ret id res]) id' key := fun _ _ hw =>
    List.mem_append_left _ hw
  refine ⟨Function.update point id r.applied,h.toLedger.mono hwants fun _ _ _ => rfl,h.stems.mono fun t b hp => ?_,
    fun id' hid' => ?_,h.explains.ret hcall hnr (h.answers hid hcall hr hop hres)⟩
  · exact hp.imp_right fun ⟨id',op',hcall,hrest⟩ => ⟨id',op',List.mem_append_left _ hcall,hrest⟩
  obtain ⟨hid',hne⟩ := List.mem_filter.mp hid'
  obtain ⟨⟨op',hcall'⟩,hnr',hlast⟩ := h.waiting id' hid'
  refine ⟨⟨op',List.mem_append_left _ hcall'⟩,fun res' hr' => ?_,fun id₁ op₁ hc₁ => hlast id₁ op₁ (hold hc₁)⟩
  have hr' : .ret id' res' ∈ w.hist ∨ (id' = id ∧ res' = res) := by simpa [World.next] using hr'
  exact hr'.elim (hnr' res') fun heq => of_decide_eq_true hne heq.1

theorem Accounts.abandon (h : Accounts S w c H L floor point) (id : ClientKey) :
    Accounts S (w.next maxSegmentSize S (.abandon id)) c H L floor point :=
  { h with waiting := fun id' hid' => h.waiting id' (List.mem_filter.mp hid').1 }

theorem Accounts.proposes (h : Accounts S w c H L floor point) {e : Drive.Event} {ce : Cluster.Event}
    (hca : Causes w.site e ce) (hasks : ∀ x ∈ e.input?, Asks w.hist x.2) :
    Cluster.Proposes (Proposed w.hist) ce := by
  intro n j m hin hm ht x hx
  obtain ⟨sv,i,_,hi,he,rfl⟩ := hca n j hin
  have hask := hasks (n,i) he
  cases i with
  | tick => cases hm
  | recv m' =>
    obtain rfl := Option.some.inj hm
    have hcont := (h.inv.net m' (h.backs.net ▸ hi.1)).content
    simp [Cluster.Content,ht] at hcont
  | request req =>
    obtain ⟨⟨id,op⟩,hcall,hreq⟩ := hask
    cases req with
    | read key resp =>
      obtain rfl := Option.some.inj hm
      cases ht
    | propose cmd =>
      obtain rfl := Option.some.inj hm
      obtain rfl := List.mem_singleton.mp hx
      by_cases hw : op.IsGet
      · cases op with
        | get key => cases hreq
        | put | delete | cas => exact absurd hw fun h => h
      rw [request_of_write id hw] at hreq
      obtain rfl := Request.propose.inj hreq
      exact .inr ⟨id,op,mem_calls.mp hcall,hw,rfl⟩

theorem Accounts.site (h : Accounts S w c H L floor point) {e : Drive.Event}
    (he : w.Enabled maxSegmentSize S (.site e)) (hf : w.Fits (.site e)) :
    ∃ c' H' L', Accounts S (w.next maxSegmentSize S (.site e)) c' H' L' floor point := by
  obtain ⟨he,hasks⟩ := he
  have hreq : ∀ n key resp, e.input? = some (n,.request (.read key resp)) →
      Wants w.hist resp key ∧ floor resp ≤ L.length := by
    intro n key resp hin
    obtain ⟨⟨id,op⟩,hcall,hreq⟩ := hasks _ hin
    cases op with
    | get key' =>
      obtain ⟨rfl,rfl⟩ := Request.read.inj hreq
      have hcall := mem_calls.mp hcall
      exact ⟨hcall,h.explains.floor_le _ _ hcall⟩
    | put | delete | cas => cases hreq
  obtain ⟨c',H',ce,L',hch,hca,hpre,hfrom,h'⟩ := h.toLedger.next he hf.1 hf.2 hreq
  have hstems := h.stems.next h.inv hch (hca.snapless h.backs) (.inl rfl) (h.proposes hca hasks)
  refine ⟨c',H',L',h',hstems,h.waiting,h.explains.grow hpre fun x hx cmd hcmd => ?_⟩
  rcases hfrom x hx with hx | ⟨n,hn,sv,hup,hx⟩
  · exact h.explains.carried x hx cmd hcmd
  -- A running node has all of its log on disk, so what it carries can be read back.
  obtain ⟨p,hv,hr⟩ : Mirrors (.up sv) (c'.host n) := hup ▸ h'.backs.nodes n hn
  exact (hstems.log n hn x hx).carried (hr.log_fits ((h'.inv.hosts n hn).peer p hv) x hx) hcmd

theorem Accounts.next (h : Accounts S w c H L floor point) {e : Event} (he : w.Enabled maxSegmentSize S e)
    (hf : w.Fits e) :
    ∃ c' H' L' floor' point', Accounts S (w.next maxSegmentSize S e) c' H' L' floor' point' := by
  cases e with
  | call id op => exact ⟨c,H,L,_,point,h.call he op⟩
  | ret id res =>
    obtain ⟨point',h'⟩ : ∃ point', Accounts S (w.next maxSegmentSize S (.ret id res)) c H L floor point' := h.ret he
    exact ⟨c,H,L,floor,point',h'⟩
  | abandon id => exact ⟨c,H,L,floor,point,h.abandon id⟩
  | site e =>
    obtain ⟨c',H',L',h'⟩ := h.site he hf
    exact ⟨c',H',L',floor,point,h'⟩

theorem World.Reachable.accounts (h : w.Reachable maxSegmentSize S) :
    ∃ c H L floor point, Accounts S w c H L floor point := by
  induction h with
  | init => exact ⟨_,_,_,_,_,Accounts.init S⟩
  | step _ he hf ih =>
    obtain ⟨c,H,L,floor,point,h⟩ := ih
    exact h.next he hf

/-- End-to-end linearizability: what the clients of production nodes see is what one sequential store would have
answered, each operation between its call and its result. -/
theorem linearizable_history (h : w.Reachable maxSegmentSize S) : Linear.Linearizable kvObject w.hist := by
  obtain ⟨c,H,L,floor,point,h⟩ := h.accounts
  exact h.explains.linearizable

inductive Move where
  | call (id : ClientKey) (op : Operation)
  | ret (id : ClientKey) (res : Result)
  | abandon (id : ClientKey)
  | site (m : Drive.Move)

/-- `none`: a move that cannot be made. -/
def Move.event (S : Setup) (w : World) : Move → Option Event
  | .call id op => if w.MayCall id then some (.call id op) else none
  | .ret id res => if w.MayReturn id res then some (.ret id res) else none
  | .abandon id => if w.MayAbandon id then some (.abandon id) else none
  | .site m => (m.event w.site).bind fun e =>
    if m.node ∈ S.peers ∧ ∀ x ∈ e.input?, Asks w.hist x.2 then some (.site e) else none

theorem Move.enabled {m : Move} {e : Event} (h : m.event S w = some e) : w.Enabled maxSegmentSize S e := by
  cases m with
  | call id op | ret id res | abandon id =>
    simp only [Move.event] at h
    split at h
    · rename_i hm
      obtain rfl := Option.some.inj h
      exact hm
    · cases h
  | site m =>
    obtain ⟨e',he',h⟩ := Option.bind_eq_some_iff.mp h
    split at h
    · rename_i hm
      obtain rfl := Option.some.inj h
      exact ⟨m.enabled hm.1 he',hm.2⟩
    · cases h

def World.play (maxSegmentSize : Nat) (S : Setup) (w : World) : List Move → Option World
  | [] => some w
  | m :: ms => (m.event S w).bind fun e =>
    if w.Fits e then (w.next maxSegmentSize S e).play maxSegmentSize S ms else none

theorem World.Reachable.play {ms : List Move} : ∀ {w w' : World}, w.Reachable maxSegmentSize S →
    w.play maxSegmentSize S ms = some w' → w'.Reachable maxSegmentSize S := by
  induction ms with
  | nil =>
    intro w w' h hp
    obtain rfl := Option.some.inj hp
    exact h
  | cons m ms ih =>
    intro w w' h hp
    obtain ⟨e,he,hp⟩ := Option.bind_eq_some_iff.mp hp
    split at hp
    · rename_i hf
      exact ih (h.step (Move.enabled he) hf) hp
    · cases hp

/-- Member 1 of three is elected and commits its no-op. -/
def electing : List Drive.Move :=
  [.start 1 fun _ => 0,.start 2 fun _ => 0,.start 3 fun _ => 0,.tick 1,.tick 1,.recv .vote 1 2 0,.recv .voteResp 2 1 0,
    .recv .append 1 2 0,.recv .appendResp 2 1 0]

/-- Client 5 puts a value and gives up on deleting it, client 6 reads it. -/
def exchange : List Move :=
  electing.map .site ++
    [.call (5,1) (.put [107] (some [118])),.site (.request 1 (request (5,1) (.put [107] (some [118])))),
      .site (.recv .append 1 2 0),.site (.recv .appendResp 2 1 0),.ret (5,1) { status := .ok, version := 1 },
      .call (6,1) (.get [107]),.call (5,2) (.delete [107]),.abandon (5,2),.site (.request 1 (request (6,1) (.get [107]))),
      .site (.recv .heartbeat 1 2 0),.site (.recv .heartbeatResp 2 1 0),
      .ret (6,1) { status := .ok, value := some [118], version := 1 }]

theorem linearizable_history_exchange : ∃ w, World.Reachable 4096 (Cluster.trio false) w ∧
    .ret (6,1) { status := .ok, value := some [118], version := 1 } ∈ w.hist ∧
    Linear.Linearizable kvObject w.hist := by
  have h : ((World.play 4096 (Cluster.trio false) {} exchange).any fun w =>
      decide (.ret (6,1) { status := .ok, value := some [118], version := 1 } ∈ w.hist)) = true := by
    decide +kernel
  obtain ⟨w,hw,h⟩ := (Option.any_eq_true _ _).mp h
  have hr := World.Reachable.init.play hw
  exact ⟨w,hr,of_decide_eq_true h,linearizable_history hr⟩

end Parallax.Client
