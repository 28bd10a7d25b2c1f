import Parallax.Cluster.Awaits
import Parallax.Drive.Answers

/-! Reads on a running node: its tokens are not used twice in a term, it has waiters only while it leads, and a waiter
is released at an index that covers what its operation must see. -/
namespace Parallax

theorem Raft.stepReadIndex_ok {r : Raft} {m : Message} (h : (r.stepReadIndex m).2 = true) : r.state = .leader := by
  unfold stepReadIndex at h
  split at h
  · cases h
  · rename_i hl
    exact not_not.mp hl

namespace Drive
open Kv StateMachine
open Cluster (Setup Hist Peer)

namespace Server
variable {s : Server} {i : Input}

private theorem token_inj {a b : UInt64} (h : token a = token b) : a = b := by
  have hget : ∀ k : UInt64, BigEndian.get (token k) = k.toNat := fun k => BigEndian.get_put (by exact k.toNat_lt)
  exact UInt64.toNat_inj.mp (by rw [← hget a,h,hget b])

private theorem handle_waiter {ctx : Bytes} {w : ReadWaiter} (h : (s.handle i).readWaiters.lookup ctx = some w) :
    s.readWaiters.lookup ctx = some w ∨
      (i = .request (.read w.key w.op) ∧ ctx = token (s.readToken + 1) ∧ s.node.state = .leader ∧
        w.resp = ⟨s.requests,.read w.key w.op⟩) := by
  cases i with
  | tick | recv m => exact .inl h
  | request req =>
    cases req with
    | propose cmd =>
      simp only [handle,handleRequest] at h
      split at h <;> exact .inl h
    | read key resp =>
      simp only [handle,handleRequest] at h
      split at h
      · rename_i hok
        rw [Cluster.step_readIndex _ rfl] at hok
        by_cases hctx : ctx = token (s.readToken + 1)
        · subst hctx
          simp only [AList.lookup_insert,Option.some.injEq] at h
          subst h
          exact .inr ⟨rfl,rfl,Raft.stepReadIndex_ok hok,rfl⟩
        · rw [AList.lookup_insert_ne hctx] at h
          exact .inl h
      · exact .inl h

theorem Filed.handle (h : s.Filed) (i : Input) : (s.handle i).Filed := by
  cases i with
  | tick | recv m => exact ⟨h.reads,h.writes⟩
  | request req =>
    cases req with
    | propose cmd =>
      simp only [Server.handle,handleRequest]
      split
      · refine ⟨h.reads,fun op resp hl => ?_⟩
        by_cases hop : op = (cmd.clientID,cmd.seq)
        · subst hop
          simp only [AList.lookup_insert,Option.some.injEq] at hl
          exact ⟨cmd,by rw [← hl],rfl⟩
        · rw [AList.lookup_insert_ne hop] at hl
          exact h.writes op resp hl
      · exact ⟨h.reads,h.writes⟩
    | read key op =>
      simp only [Server.handle,handleRequest]
      split
      · refine ⟨fun ctx w hl => ?_,h.writes⟩
        by_cases hctx : ctx = token (s.readToken + 1)
        · subst hctx
          simp only [AList.lookup_insert,Option.some.injEq] at hl
          rw [← hl]
          rfl
        · rw [AList.lookup_insert_ne hctx] at hl
          exact h.reads ctx w hl
      · exact ⟨h.reads,h.writes⟩

theorem handle_rest (s : Server) (i : Input) : (s.handle i).pendingReads = s.pendingReads ∧
    (s.handle i).prevLeader = s.prevLeader ∧ (s.handle i).readToken = s.readToken + i.count ∧
    ∀ r ∈ (s.handle i).replies, r ∈ s.replies ∨ ∃ l, r.answer = .notLeader l := by
  have hrefused : ∀ resp l, ∀ r ∈ (⟨resp,.notLeader l,s.applied⟩ : Reply) :: s.replies,
      r ∈ s.replies ∨ ∃ l, r.answer = .notLeader l := by
    intro resp l r hr
    rcases List.mem_cons.mp hr with rfl | hr
    · exact .inr ⟨l,rfl⟩
    · exact .inl hr
  cases i with
  | tick | recv m => exact ⟨rfl,rfl,(UInt64.add_zero _).symm,fun _ => .inl⟩
  | request req =>
    cases req with
    | propose cmd =>
      simp only [handle,handleRequest]
      split
      · exact ⟨rfl,rfl,(UInt64.add_zero _).symm,fun _ => .inl⟩
      · exact ⟨rfl,rfl,(UInt64.add_zero _).symm,hrefused _ _⟩
    | read key resp =>
      simp only [handle,handleRequest]
      split
      · exact ⟨rfl,rfl,rfl,fun _ => .inl⟩
      · exact ⟨rfl,rfl,rfl,hrefused _ _⟩

theorem foldl_notLeader (resps : List Chan) : ∀ s : Server,
    resps.foldl (fun s resp => s.reply resp (.notLeader s.node.lead)) s =
      { s with replies := (resps.map fun resp => ⟨resp,.notLeader s.node.lead,s.applied⟩).reverse ++ s.replies } := by
  induction resps with
  | nil => exact fun _ => rfl
  | cons resp resps ih =>
    intro s
    rw [List.foldl_cons,ih]
    simp [reply]

theorem checkLeadership_rest (s : Server) : s.checkLeadership.readToken = s.readToken ∧
    s.checkLeadership.prevLeader = decide (s.node.state = .leader) ∧
    ∀ r ∈ s.checkLeadership.replies, r ∈ s.replies ∨ ∃ l, r.answer = .notLeader l := by
  unfold checkLeadership
  simp only
  split
  · rw [foldl_notLeader]
    refine ⟨rfl,trivial,fun r hr => ?_⟩
    rcases List.mem_append.mp hr with hr | hr
    · obtain ⟨op,_,rfl⟩ := List.mem_map.mp (List.mem_reverse.mp hr)
      exact .inr ⟨_,rfl⟩
    · exact .inl hr
  · exact ⟨rfl,trivial,fun _ => .inl⟩

theorem checkLeadership_cases (s : Server) :
    (s.checkLeadership.readWaiters = s.readWaiters ∧ s.checkLeadership.writeWaiters = s.writeWaiters ∧
      s.checkLeadership.pendingReads = s.pendingReads ∧ (s.node.state = .leader ∨ s.prevLeader = false)) ∨
    (s.checkLeadership.readWaiters = ∅ ∧ s.checkLeadership.writeWaiters = ∅ ∧ s.checkLeadership.pendingReads = []) := by
  unfold checkLeadership
  simp only
  split
  · exact .inr ⟨rfl,rfl,rfl⟩
  rename_i hno
  refine .inl ⟨rfl,rfl,rfl,?_⟩
  cases hp : s.prevLeader with
  | false => exact .inr rfl
  | true =>
    rw [hp] at hno
    simpa using hno

theorem Filed.checkLeadership (h : s.Filed) : s.checkLeadership.Filed := by
  unfold Server.checkLeadership
  simp only
  split
  · exact ⟨fun _ _ hl => (by cases hl),fun _ _ hl => by cases hl⟩
  · exact ⟨h.reads,h.writes⟩

/-- No request has come in yet. -/
structure Idle (s : Server) : Prop where
  replies : s.replies = []
  prevLeader : s.prevLeader = false
  readWaiters : s.readWaiters = ∅
  writeWaiters : s.writeWaiters = ∅
  pendingReads : s.pendingReads = []
  requests : s.requests = 0
  follower : s.node.state = .follower

theorem Idle.filed (h : s.Idle) : s.Filed where
  reads ctx w hl := by
    rw [h.readWaiters] at hl
    cases hl
  writes op resp hl := by
    rw [h.writeWaiters] at hl
    cases hl

theorem new_idle {maxSegmentSize : Nat} {cfg : Config} {dir : Disk.Dir} {rand : Nat → Nat}
    (h : Server.new maxSegmentSize cfg dir rand = some s) : s.Idle := by
  have hrole := fun st => (Cluster.newRaft_role cfg st rand).2.1
  unfold Server.new at h
  simp only at h
  split at h
  · cases h
  split at h
  · split at h
    · split at h
      · cases h
      · obtain rfl := Option.some.inj h
        exact ⟨rfl,rfl,rfl,rfl,rfl,rfl,hrole _⟩
    · obtain rfl := Option.some.inj h
      exact ⟨rfl,rfl,rfl,rfl,rfl,rfl,hrole _⟩
  · obtain rfl := Option.some.inj h
    exact ⟨rfl,rfl,rfl,rfl,rfl,rfl,hrole _⟩

section checked
variable (hflag : s.prevLeader = decide (s.node.state = .leader))
include hflag

theorem checked_waiter (hw : ∀ ctx w, s.readWaiters.lookup ctx = some w → s.node.state = .leader) {ctx : Bytes}
    {w : ReadWaiter} (h : (s.handle i).checkLeadership.readWaiters.lookup ctx = some w) :
    (s.handle i).node.state = .leader ∧ s.node.state = .leader ∧ (s.readWaiters.lookup ctx = some w ∨
      (i = .request (.read w.key w.op) ∧ ctx = token (s.readToken + 1) ∧ w.resp = ⟨s.requests,.read w.key w.op⟩)) := by
  rcases (s.handle i).checkLeadership_cases with ⟨hwait,_,_,hlead⟩ | ⟨hnone,_⟩
  · rw [hwait] at h
    have hold := handle_waiter h
    have hl : s.node.state = .leader := hold.elim (hw ctx w) fun h => h.2.2.1
    refine ⟨hlead.resolve_right fun hp => ?_,hl,hold.imp_right fun h => ⟨h.1,h.2.1,h.2.2.2⟩⟩
    rw [(s.handle_rest i).2.1,hflag] at hp
    exact of_decide_eq_false hp hl
  · rw [hnone] at h
    cases h

private theorem checked_pending (hp : ∀ rs ∈ s.pendingReads, s.node.state = .leader) {rs : ReadState}
    (h : rs ∈ (s.handle i).checkLeadership.pendingReads) :
    (s.handle i).node.state = .leader ∧ s.node.state = .leader ∧ rs ∈ s.pendingReads := by
  rcases (s.handle i).checkLeadership_cases with ⟨_,_,hpend,hlead⟩ | ⟨_,_,hnone⟩
  · rw [hpend,(s.handle_rest i).1] at h
    have hl := hp rs h
    refine ⟨hlead.resolve_right fun hfalse => ?_,hl,h⟩
    rw [(s.handle_rest i).2.1,hflag] at hfalse
    exact of_decide_eq_false hfalse hl
  · rw [hnone] at h
    cases h

end checked
end Server

variable {S : Setup} {H H' : Hist} {n maxSegmentSize : Nat} {c c' : Cluster.State (serving S).app} {s : Site}
  {sv : Server} {i : Input} {need : ClientKey → Nat} {gets : ClientKey → Bytes → Prop}

/-- How node `n` stands with its reads, between inputs. -/
structure Reading (S : Setup) (c : Cluster.State (serving S).app) (H : Hist) (need : ClientKey → Nat)
    (gets : ClientKey → Bytes → Prop) (n : Nat) (sv : Server) : Prop where
  replies : sv.replies = []
  prevLeader : sv.prevLeader = decide (sv.node.state = .leader)
  filed : sv.Filed
  /-- Since its start the node used the tokens up to the last one. -/
  tokens : ∃ t₀, Cluster.Past t₀ sv.node ∧ ∀ t ctx, t₀ < t → Cluster.Asked c.hist n t ctx →
    ∃ k ≤ sv.readToken, ctx = Server.token k
  waiters : ∀ ctx w, sv.readWaiters.lookup ctx = some w → sv.node.state = .leader ∧ gets w.op w.key ∧
    Cluster.Awaits (serving S) H c n sv.node.term (need w.op) ctx
  pending : ∀ rs ∈ sv.pendingReads, sv.node.state = .leader ∧ Cluster.Asked c.hist n sv.node.term rs.requestCtx ∧
    ∀ w, sv.readWaiters.lookup rs.requestCtx = some w → need w.op ≤ rs.index

theorem Reading.fresh (h : Reading S c H need gets n sv) (hl : sv.node.state = .leader)
    (hc : sv.readToken ≤ sv.readToken + 1) :
    ¬ Cluster.Asked c.hist n sv.node.term (Server.token (sv.readToken + 1)) := by
  intro ha
  obtain ⟨t₀,hp,htok⟩ := h.tokens
  obtain ⟨k,hk,heq⟩ := htok _ _ (hp.2 (.inr hl)) ha
  obtain rfl := Server.token_inj heq
  have hsame := UInt64.le_antisymm hc hk
  simp at hsame

theorem Backs.asks (hb : Backs S c s) (hI : Cluster.Inv (serving S) c H) (hi : s.Admits n i) (sv : Server) {m : Message}
    (hm : (sv.cause i).message? = some m) (ht : m.type = .readIndex) :
    i.count = 1 ∧ m.context = Server.token (sv.readToken + 1) := by
  cases i with
  | tick => cases hm
  | recv m' =>
    obtain rfl := Option.some.inj hm
    have hcont := (hI.net m' (hb.net ▸ hi.1)).content
    simp [Cluster.Content,ht] at hcont
  | request req =>
    cases req with
    | propose cmd =>
      obtain rfl := Option.some.inj hm
      cases ht
    | read key resp =>
      obtain rfl := Option.some.inj hm
      exact ⟨rfl,rfl⟩

/-- Events elsewhere leave the node's reads as they are. -/
theorem Reading.other (h : Reading S c H need gets n sv)
    (hI : Cluster.Inv (serving S) c H) {ce : Cluster.Event} (hch : Cluster.Change (serving S) H H' c ce c')
    (hI' : Cluster.Inv (serving S) c' H') (hne : ∀ j, ce.input? ≠ some (n,j)) : Reading S c' H' need gets n sv where
  replies := h.replies
  prevLeader := h.prevLeader
  filed := h.filed
  tokens := by
    obtain ⟨t₀,hp,htok⟩ := h.tokens
    refine ⟨t₀,hp,fun t ctx ht ha => ?_⟩
    rcases ha.of_next hch with ha | ⟨_,m,_,he,_⟩
    · exact htok t ctx ht ha
    · exact absurd he (hne _)
  waiters ctx w hw := by
    obtain ⟨hl,hg,ha⟩ := h.waiters ctx w hw
    exact ⟨hl,hg,ha.next hI hch hI' fun m he => absurd he (hne _)⟩
  pending rs hrs := by
    obtain ⟨hl,ha,hc⟩ := h.pending rs hrs
    obtain ⟨os,hos⟩ := hch.hist
    exact ⟨hl,ha.mono (by rw [hos]; exact List.subset_append_right _ _),hc⟩

/-- More operations are called. -/
theorem Reading.mono {need' : ClientKey → Nat} {gets' : ClientKey → Bytes → Prop} (h : Reading S c H need gets n sv)
    (hg : ∀ op key, gets op key → gets' op key) (hn : ∀ op key, gets op key → need' op = need op) :
    Reading S c H need' gets' n sv where
  replies := h.replies
  prevLeader := h.prevLeader
  filed := h.filed
  tokens := h.tokens
  waiters ctx w hw := by
    obtain ⟨hl,hgw,ha⟩ := h.waiters ctx w hw
    exact ⟨hl,hg _ _ hgw,(hn _ _ hgw).symm ▸ ha⟩
  pending rs hrs := by
    obtain ⟨hl,ha,hc⟩ := h.pending rs hrs
    exact ⟨hl,ha,fun w hw => (hn _ _ (h.waiters _ w hw).2.1).symm ▸ hc w hw⟩

theorem Reading.started (hA : Cluster.AskedWithin c) (hid : sv.Idle)
    (ht : sv.node.term = (c.host n).disk.hardState.term) : Reading S c H need gets n sv where
  replies := hid.replies
  prevLeader := by rw [hid.prevLeader,hid.follower]; rfl
  filed := hid.filed
  tokens := by
    refine ⟨sv.node.term,⟨le_rfl,fun hst => by simp [hid.follower] at hst⟩,fun t ctx hlt ha => ?_⟩
    have := hA n t ctx ha
    omega
  waiters ctx w hl := by
    rw [hid.readWaiters] at hl
    cases hl
  pending rs hrs := by
    rw [hid.pendingReads] at hrs
    cases hrs

theorem Runs.log_fits {d : Parallax.Storage} {p : Peer (serving S).app} (h : Runs sv d p)
    (hpk : Cluster.PeerOK (serving S) H n d p) : ∀ e ∈ H.log n, Disk.EntryFits e := by
  have hrep := hpk.core.ok.log.repr.storage hpk.clean
  have hoff : sv.stor.mirror.toStorage.offset = 0 := by
    obtain ⟨_,hb,_⟩ := h.stored
    exact hb.offset
  rw [h.node,h.storage] at hrep
  have hents := hrep.entries
  rw [hoff,List.drop_zero] at hents
  exact fun e he => h.stored.fits e (hents ▸ he)

theorem Runs.applied_lt {d : Parallax.Storage} {p : Peer (serving S).app} (h : Runs sv d p)
    (hpk : Cluster.PeerOK (serving S) H n d p) : p.applied < 2 ^ 64 := by
  have hlog := hpk.core.ok.log
  have hle : p.applied ≤ (H.log n).length := by
    rw [hpk.applied]
    exact hlog.applied_le.trans hlog.commit_le
  rcases Nat.eq_zero_or_pos p.applied with h0 | hpos
  · omega
  obtain ⟨e,he⟩ : ∃ e, (H.log n)[p.applied - 1]? = some e := ⟨_,List.getElem?_eq_getElem (by omega)⟩
  have hidx := hlog.repr.indexed _ e he
  have hfit : e.index < 2 ^ 64 := (h.log_fits hpk e (List.mem_of_getElem? he)).2.1
  omega

theorem Runs.settles {p : Peer (serving S).app} (h : Runs sv (c.host n).disk p)
    (hpk : Cluster.PeerOK (serving S) H n (c.host n).disk p) {s₂ : Server}
    (hal : Server.Alike { sv with node := (sv.cause i).run p.raft } s₂)
    (hu : Cluster.Undrained (serving S) H' n (c.host n).disk { p with raft := (sv.cause i).run p.raft })
    (hsn : s₂.node.raftLog.unstable.snapshot = none) {xs : List Entry}
    (hxs : xs = (H'.log n).take s₂.node.raftLog.committed) :
    s₂.applied ≤ xs.length ∧ s₂.sm = fold (xs.take s₂.applied) ∧ (∀ k e, xs[k]? = some e → e.index = k + 1) ∧
      H'.CommittedBy s₂.node.term xs ∧ ∀ rd, s₂.node.ready = .ok rd → rd.committedEntries = xs.drop s₂.applied ∧
        rd.readStates = s₂.node.readStates := by
  have hlog := hu.core.ok.log
  have hcom := hlog.committed
  rw [hal.node] at hsn
  have happ := hu.applied hsn
  have hsm := hu.sm.resolve_right fun ⟨snap,hsnap⟩ => by cases hsn.symm.trans hsnap
  have hof : ∀ rd, ((sv.cause i).run p.raft).ready = .ok rd → _ := fun rd hrd => hlog.readyOf hrd
  have hle := hlog.applied_le
  have hcl := hlog.commit_le
  have hnode : (sv.cause i).run p.raft = s₂.node := hal.node.symm
  have hap : p.applied = s₂.applied := h.applied.trans hal.applied.symm
  simp only at hcom happ hsm hof hle hcl
  rw [hnode] at hcom happ hof hle hcl
  rw [← happ,hap] at hle
  subst hxs
  have hlen : s₂.applied ≤ ((H'.log n).take s₂.node.raftLog.committed).length := by
    rw [List.length_take]
    omega
  refine ⟨hlen,?_,fun k e hk => ?_,hcom,fun rd' hrd' => ?_⟩
  · have hlt := h.applied_lt hpk
    rw [hal.sm,show sv.sm = p.sm.machine from h.sm.symm,hsm,List.take_take,min_eq_left hle,← hap]
    exact applyAll_machine (by rw [List.length_take]; omega)
  · rw [List.getElem?_take] at hk
    split at hk
    · exact hlog.repr.indexed k e hk
    · cases hk
  have hce := (hof rd' hrd').committedEntries
  rw [← happ,hap] at hce
  exact ⟨hce,(hof rd' hrd').readStates⟩

/-- The node after an input, beside the cluster's step. -/
theorem Backs.input (hb : Backs S c s) (hI : Cluster.Inv (serving S) c H)
    (he : s.Enabled maxSegmentSize S (.input n i)) (hf : s.Fits (.input n i)) (hx : s.node n = .up sv)
    {p : Peer (serving S).app} (hv : (c.host n).vol = some p) (hr : Runs sv (c.host n).disk p)
    (hc' : c' = c.next (serving S) (.input n (sv.cause i) false)) : ∃ (ms : List Message) (sv' : Server) (H' : Hist),
      s.next maxSegmentSize S (.input n i) = { s.setNode n (.up { sv' with replies := [] }) with
        net := ms ++ s.net, replies := sv'.replies ++ s.replies } ∧ (sv.handle i).checkLeadership.Emptied sv' ∧
      sv'.node.state = (sv.handle i).node.state ∧ sv'.node.term = (sv.handle i).node.term ∧
      Consensus.History.Frame n H H' ∧ Cluster.At (serving S) H' n ((sv.cause i).run p.raft) ∧
      Cluster.Change (serving S) H H' c (.input n (sv.cause i) false) c' ∧ Cluster.Inv (serving S) c' H' ∧
      Backs S c' (s.next maxSegmentSize S (.input n i)) := by
  subst hc'
  have hadm := hb.admits he.2 sv
  have hfits : ∀ rd, (sv.handle i).node.ready = .ok rd → BatchFits rd := fun rd hrd =>
    hf sv (by rw [hx]; rfl) rd (by rw [hrd]; rfl)
  obtain ⟨hfail,ms,sv',hdrain,hemp,_⟩ := hr.input hI he.1 hv hadm (hb.arrives he.2 sv) hfits maxSegmentSize
  have hnext : s.next maxSegmentSize S (.input n i) = { s.setNode n (.up { sv' with replies := [] }) with
      net := ms ++ s.net, replies := sv'.replies ++ s.replies } := by
    simp only [Site.next,hx,hfail,Bool.false_eq_true,if_false,hdrain]
  obtain ⟨H',hfr,ha,⟨p',hv',hdr⟩,hch,hI'⟩ := hI.inputAt he.1 hadm false hv
  obtain ⟨c',hsh,hb'⟩ := hb.next hI he hf
  simp only [Shadows,hx] at hsh
  subst hsh
  have hm := hb'.nodes n he.1
  rw [hnext] at hm
  obtain ⟨p₁,hv₁,hr₁⟩ : Mirrors (S := S) (.up { sv' with replies := [] }) _ := by simpa [Site.setNode] using hm
  obtain rfl := Option.some.inj (hv'.symm.trans hv₁)
  -- The drain leaves role and term of the core alone.
  have hraft : p'.raft = sv'.node := hr₁.node
  have hnode : (sv.handle i).node = (sv.cause i).run p.raft := (sv.handle_alike i).node.trans (by rw [hr.node])
  obtain ⟨l,hs,hd,_⟩ := hdr
  refine ⟨ms,sv',H',hnext,hemp,?_,?_,hfr,ha,hch,hI',hb'⟩ <;> rw [← hraft,hd,hnode]

/-- What a node is held to after an input: its waiters are those it has before the drain. -/
def Server.terms (s : Server) (xs : List Entry) (need : ClientKey → Nat) (gets : ClientKey → Bytes → Prop)
    (asked : Bytes → Prop) : Terms where
  log := xs
  need := need
  gets := gets
  waits ctx w := s.readWaiters.lookup ctx = some w
  asked := asked
  leads := decide (s.node.state = .leader)
  token := s.readToken

section input
variable {p : Peer (serving S).app} (h : Reading S c H need gets n sv) (hb : Backs S c s)
  (hI : Cluster.Inv (serving S) c H) (hS : Cluster.Sourced (serving S) c) (hn : n ∈ S.peers) (hi : s.Admits n i)
  (hcnt : sv.readToken ≤ sv.readToken + i.count) (hv : (c.host n).vol = some p) (hr : Runs sv (c.host n).disk p)
include h hb hI hi hcnt

theorem Reading.new_token (hl : sv.node.state = .leader) {m : Message} (hm : (sv.cause i).message? = some m)
    (ht : m.type = .readIndex) : ¬ Cluster.Asked c.hist n sv.node.term m.context := by
  obtain ⟨hone,hctx⟩ := hb.asks hI hi sv hm ht
  rw [hone] at hcnt
  rw [hctx]
  exact h.fresh hl hcnt

include hS hn

theorem Reading.checked {t : Nat} {xs : List Entry} (hxs : H.CommittedBy t xs)
    (hreq : ∀ key resp, i = .request (.read key resp) → gets resp key ∧ need resp ≤ xs.length) {ctx : Bytes}
    {w : ReadWaiter} (hw : (sv.handle i).checkLeadership.readWaiters.lookup ctx = some w) :
    (sv.handle i).node.state = .leader ∧ (sv.handle i).node.term = sv.node.term ∧ sv.node.state = .leader ∧
      gets w.op w.key ∧ Cluster.Awaits (serving S) H c n sv.node.term (need w.op) ctx := by
  obtain ⟨hl',hl,hcase⟩ := Server.checked_waiter h.prevLeader (fun ctx w hw => (h.waiters ctx w hw).1) hw
  have hnode := (sv.handle_alike i).node
  have hrole := hI.role (hb.admits hi sv) sv.node
  refine ⟨hl',?_,hl,?_⟩
  · rw [hnode] at hl' ⊢
    exact hrole.leader_term hl hl'
  rcases hcase with hold | ⟨rfl,rfl,_⟩
  · exact (h.waiters ctx w hold).2
  · obtain ⟨hg,hle⟩ := hreq w.key w.op rfl
    exact ⟨hg,hI.awaits hS hn (h.fresh hl hcnt) hxs hle⟩

include hv hr

theorem Reading.due {t : Nat} {xs : List Entry} (hxs : H.CommittedBy t xs)
    (hreq : ∀ key resp, i = .request (.read key resp) → gets resp key ∧ need resp ≤ xs.length)
    (ha : Cluster.At (serving S) H' n ((sv.cause i).run p.raft)) (hx : Consensus.History.Ext H H') {os : List Cluster.Obs}
    (hos : .stepped n (some (sv.cause i)) ((sv.cause i).run p.raft) :: c.hist ⊆ os) {rs : ReadState}
    (hrs : rs ∈ (sv.handle i).checkLeadership.pendingReads ∨ rs ∈ (sv.handle i).node.readStates) :
    (sv.handle i).node.state = .leader ∧ Cluster.Asked os n (sv.handle i).node.term rs.requestCtx ∧
      ∀ w, (sv.handle i).checkLeadership.readWaiters.lookup rs.requestCtx = some w → need w.op ≤ rs.index := by
  have hnode : (sv.handle i).node = (sv.cause i).run p.raft := (sv.handle_alike i).node.trans (by rw [hr.node])
  have hadm := hb.admits hi sv
  rcases hrs with hrs | hrs
  · obtain ⟨hl',hl,hrs⟩ := Server.checked_pending h.prevLeader (fun rs hrs => (h.pending rs hrs).1) hrs
    obtain ⟨_,hask,hold⟩ := h.pending rs hrs
    refine ⟨hl',?_,fun w hw => ?_⟩
    · have hterm : (sv.handle i).node.term = sv.node.term := by
        rw [hnode] at hl' ⊢
        rw [← hr.node] at hl ⊢
        exact (hI.role hadm p.raft).leader_term hl hl'
      rw [hterm]
      exact hask.mono fun o ho => hos (List.mem_cons_of_mem _ ho)
    -- What is pending already is not the new read.
    obtain ⟨_,_,hcase⟩ := Server.checked_waiter h.prevLeader (fun ctx w hw => (h.waiters ctx w hw).1) hw
    rcases hcase with hw | ⟨rfl,hctx,_⟩
    · exact hold w hw
    · exact absurd (hctx ▸ hask) (h.fresh hl hcnt)
  have hl' : (sv.handle i).node.state = .leader := by
    by_contra hne
    rw [hnode] at hne hrs
    rw [(hI.posts hn hv hadm).quiet (.inr hne),((hI.hosts n hn).peer p hv).reads] at hrs
    cases hrs
  refine ⟨hl',?_,fun w hw => ?_⟩
  · rw [hnode] at hl' hrs ⊢
    exact ((hS.input hI hn hv hadm hl').released rs hrs).1.mono hos
  obtain ⟨_,hterm,hl,_,haw⟩ := h.checked hb hI hS hn hi hcnt hxs hreq hw
  rw [hnode] at hl' hterm hrs
  exact haw.released hI hn hv hadm ha hx (fun m hm ht => h.new_token hb hI hi hcnt hl hm ht) hl' hterm hrs rfl

end input

theorem Reading.serves (h : Reading S c H need gets n sv) (asked : Bytes → Prop) {xs : List Entry}
    (hle : (sv.handle i).checkLeadership.applied ≤ xs.length)
    (hsm : (sv.handle i).checkLeadership.sm = fold (xs.take (sv.handle i).checkLeadership.applied))
    (hgets : ∀ ctx w, (sv.handle i).checkLeadership.readWaiters.lookup ctx = some w → gets w.op w.key)
    (hdue : ∀ rs ∈ (sv.handle i).checkLeadership.pendingReads,
      ((sv.handle i).checkLeadership.terms xs need gets asked).Due rs) :
    Serves ((sv.handle i).checkLeadership.terms xs need gets asked) (sv.handle i).checkLeadership := by
  obtain ⟨_,hflag,hreps⟩ := (sv.handle i).checkLeadership_rest
  obtain ⟨_,_,_,hreps'⟩ := sv.handle_rest i
  rw [← (sv.handle i).checkLeadership_alike.node] at hflag
  refine ⟨hle,hsm,fun ctx w hw => ⟨hw,hgets ctx w hw⟩,(h.filed.handle i).checkLeadership,hdue,fun r hrep res hres => ?_,
    hflag,rfl⟩
  -- Nothing but refusals has been sent so far.
  have hno : ∃ l, r.answer = .notLeader l := by
    refine (hreps r hrep).elim (fun hrep => (hreps' r hrep).resolve_left fun hold => ?_) id
    rw [h.replies] at hold
    cases hold
  obtain ⟨l,hl⟩ := hno
  cases hl.symm.trans hres

theorem Reading.tokens_next (h : Reading S c H need gets n sv) (hb : Backs S c s) (hI : Cluster.Inv (serving S) c H)
    (hi : s.Admits n i) (hcnt : sv.readToken ≤ sv.readToken + i.count)
    (hch : Cluster.Change (serving S) H H' c (.input n (sv.cause i) false) c') {r : Raft}
    (hs : r.state = (sv.handle i).node.state) (hterm : r.term = (sv.handle i).node.term) :
    ∃ t₀, Cluster.Past t₀ r ∧ ∀ t ctx, t₀ < t → Cluster.Asked c'.hist n t ctx →
      ∃ k ≤ sv.readToken + i.count, ctx = Server.token k := by
  obtain ⟨t₀,hpast,htok⟩ := h.tokens
  have hpast' := hpast.role (hI.role (hb.admits hi sv) sv.node)
  rw [show (sv.cause i).run sv.node = (sv.handle i).node from (sv.handle_alike i).node.symm] at hpast'
  refine ⟨t₀,⟨by rw [hterm]; exact hpast'.1,by rw [hs,hterm]; exact hpast'.2⟩,fun t ctx ht hask => ?_⟩
  rcases hask.of_next hch with hask | ⟨_,m,_,hin,hty,rfl,_⟩
  · obtain ⟨k,hk,heq⟩ := htok t ctx ht hask
    exact ⟨k,UInt64.le_trans hk hcnt,heq⟩
  obtain ⟨_,hcause⟩ := Prod.mk.inj (Option.some.inj hin)
  obtain ⟨hone,hctx⟩ := hb.asks hI hi sv (m := m) (by rw [hcause]; rfl) hty
  rw [hone]
  exact ⟨_,UInt64.le_refl _,hctx⟩

theorem Reading.input (h : Reading S c H need gets n sv) (hb : Backs S c s) (hI : Cluster.Inv (serving S) c H)
    (hS : Cluster.Sourced (serving S) c) (he : s.Enabled maxSegmentSize S (.input n i)) (hf : s.Fits (.input n i))
    (hx : s.node n = .up sv) (hcnt : sv.readToken ≤ sv.readToken + i.count) {t : Nat} {xs : List Entry}
    (hxs : H.CommittedBy t xs)
    (hreq : ∀ key resp, i = .request (.read key resp) → gets resp key ∧ need resp ≤ xs.length) :
    ∃ (ms : List Message) (sv' : Server) (c' : Cluster.State (serving S).app) (H' : Hist) (t' : Nat) (ys : List Entry),
      s.next maxSegmentSize S (.input n i) = { s.setNode n (.up { sv' with replies := [] }) with
        net := ms ++ s.net, replies := sv'.replies ++ s.replies } ∧
      Cluster.Change (serving S) H H' c (.input n (sv.cause i) false) c' ∧ Cluster.Inv (serving S) c' H' ∧
      Backs S c' (s.next maxSegmentSize S (.input n i)) ∧ Reading S c' H' need gets n { sv' with replies := [] } ∧
      H'.CommittedBy t' ys ∧ ys <+: H'.log n ∧ ∀ r ∈ sv'.replies, Given ys need gets r := by
  have hn := he.1
  have hi := he.2
  have hadm := hb.admits hi sv
  obtain ⟨p,hv,hr⟩ : Mirrors (.up sv) (c.host n) := hx ▸ hb.nodes n hn
  have hpk := (hI.hosts n hn).peer p hv
  obtain ⟨_,_,_,_,heff,_⟩ := hI.input hn hv hadm
  obtain ⟨os,hos,_⟩ := Cluster.next_hist c hv (e := .input n (sv.cause i) false) rfl
  generalize hc' : c.next (serving S) (.input n (sv.cause i) false) = c' at hos
  obtain ⟨ms,sv',H',hnext,hemp,hstate,hterm',hfr,ha,hch,hI',hb'⟩ := hb.input hI he hf hx hv hr hc'.symm
  have hcheck := (sv.handle i).checkLeadership_alike.node
  have hal : Server.Alike { sv with node := (sv.cause i).run p.raft } (sv.handle i).checkLeadership :=
    Server.Alike.trans (by rw [hr.node]; exact sv.handle_alike i) (sv.handle i).checkLeadership_alike
  obtain ⟨hle,hsm,hidx,hcom,hready⟩ := hr.settles hpk hal (hpk.undrained hfr ha heff)
    (by rw [hal.node]; exact heff.no_snapshot hpk.clean.1 (hb.arrives hi sv)) rfl
  have hsub : .stepped n (some (sv.cause i)) ((sv.cause i).run p.raft) :: c.hist ⊆ c'.hist := by
    rw [hos]
    exact List.subset_append_right _ _
  have hwait := fun ctx w (hw : (sv.handle i).checkLeadership.readWaiters.lookup ctx = some w) =>
    h.checked hb hI hS hn hi hcnt hxs hreq hw
  have hdue := fun rs (hrs : rs ∈ (sv.handle i).checkLeadership.pendingReads ∨ rs ∈ (sv.handle i).node.readStates) =>
    h.due hb hI hS hn hi hcnt hv hr hxs hreq ha hfr.ext hsub hrs
  have hserves := (h.serves
    (fun ctx => (sv.handle i).node.state = .leader ∧ Cluster.Asked c'.hist n (sv.handle i).node.term ctx) hle hsm
    (fun ctx w hw => (hwait ctx w hw).2.2.2.1) fun rs hrs => and_assoc.mpr (hdue rs (.inl hrs))).emptied hidx hemp
    fun rd hrd => ⟨(hready rd hrd).1,fun rs hrs =>
      and_assoc.mpr (hdue rs (.inr (by rw [← hcheck,← (hready rd hrd).2]; exact hrs)))⟩
  have hnew : ∀ m, sv.node.state = .leader → (Cluster.Event.input n (sv.cause i) false).input? = some (n,.step m) →
      m.type = .readIndex → ¬ Cluster.Asked c.hist n sv.node.term m.context := by
    intro m hl hin
    obtain ⟨_,hcause⟩ := Prod.mk.inj (Option.some.inj hin)
    exact h.new_token hb hI hi hcnt hl (by rw [hcause]; rfl)
  refine ⟨ms,sv',c',H',_,_,hnext,hch,hI',hb',⟨rfl,?_,⟨hserves.filed.reads,hserves.filed.writes⟩,?_,fun ctx w hw => ?_,
    fun rs hrs => ?_⟩,hcom,List.take_prefix _ _,hserves.replies⟩
  · rw [hstate,← hcheck]
    exact hserves.prevLeader
  · have hnow : sv'.readToken = sv.readToken + i.count :=
      hserves.readToken.trans ((sv.handle i).checkLeadership_rest.1.trans (sv.handle_rest i).2.2.1)
    simp only [hnow]
    exact h.tokens_next hb hI hi hcnt hch hstate hterm'
  · obtain ⟨hl',hterm,hl,hg,haw⟩ := hwait ctx w (hserves.waiters ctx w hw).1
    rw [show ({ sv' with replies := [] } : Server).node = sv'.node from rfl,hstate,hterm',hterm]
    exact ⟨hl',hg,haw.next hI hch hI' fun m => hnew m hl⟩
  obtain ⟨⟨hl',hask⟩,hcov⟩ := hserves.pending rs hrs
  rw [show ({ sv' with replies := [] } : Server).node = sv'.node from rfl,hstate,hterm']
  exact ⟨hl',hask,fun w hw => hcov w (hserves.waiters _ w hw).1⟩

theorem Reading.quiet (h : ∀ n ∈ S.peers, ∀ sv, s.node n = .up sv → Reading S c H need gets n sv) (hb : Backs S c s)
    (hI : Cluster.Inv (serving S) c H) (hS : Cluster.Sourced (serving S) c) (hA : Cluster.AskedWithin c) {e : Event}
    (he : s.Enabled maxSegmentSize S e) (hf : s.Fits e) (hno : ∀ n i sv, e = .input n i → s.node n ≠ .up sv) :
    ∃ c' H' ce, Cluster.Change (serving S) H H' c ce c' ∧ Causes s e ce ∧ Cluster.Inv (serving S) c' H' ∧
      Backs S c' (s.next maxSegmentSize S e) ∧ (s.next maxSegmentSize S e).replies = s.replies ∧
      ∀ n ∈ S.peers, ∀ sv, (s.next maxSegmentSize S e).node n = .up sv → Reading S c' H' need gets n sv := by
  obtain ⟨c',hsh,hb'⟩ := hb.next hI he hf
  -- The cluster stays as it is.
  have hidle : c' = c → (s.next maxSegmentSize S e).replies = s.replies →
      (∀ n sv, (s.next maxSegmentSize S e).node n = .up sv → s.node n = .up sv) →
      ∃ c' H' ce, Cluster.Change (serving S) H H' c ce c' ∧ Causes s e ce ∧ Cluster.Inv (serving S) c' H' ∧
        Backs S c' (s.next maxSegmentSize S e) ∧ (s.next maxSegmentSize S e).replies = s.replies ∧
        ∀ n ∈ S.peers, ∀ sv, (s.next maxSegmentSize S e).node n = .up sv → Reading S c' H' need gets n sv := by
    rintro rfl hreps hup
    exact ⟨c',H,.crash 0,.idle rfl rfl,fun _ _ hin => (by cases hin),hI,hb',hreps,
      fun n hn sv hx => h n hn sv (hup n sv hx)⟩
  have hdown : ∀ {n : Nat} {d : Disk.Dir} {m : Nat} {sv : Server}, (s.setNode n (.down d)).node m = .up sv →
      m ≠ n ∧ s.node m = .up sv := by
    intro n d m sv hx
    exact (Site.setNode_up hx).resolve_left fun h => by cases h.2
  cases e with
  | input n i =>
    have hx : ∃ d, s.node n = .down d := by
      cases hx : s.node n with
      | up sv => exact absurd hx (hno n i sv rfl)
      | down d => exact ⟨d,rfl⟩
    obtain ⟨d,hx⟩ := hx
    have hsame : s.next maxSegmentSize S (.input n i) = s := by simp only [Site.next,hx]
    simp only [Shadows,hx] at hsh
    exact hidle hsh (by rw [hsame]) fun m sv hm => hsame ▸ hm
  | torn n i d =>
    obtain ⟨sv,j,hx,rfl⟩ := hsh
    obtain ⟨H',hch,hI'⟩ := hI.next (e := .torn n (sv.cause i) j) ⟨he.1,hb.admits he.2.1 sv⟩
    refine ⟨_,H',_,hch,fun q j hin => ?_,hI',hb',rfl,fun m hm sv' hx' => ?_⟩
    · obtain ⟨rfl,rfl⟩ := Prod.mk.inj (Option.some.inj hin)
      exact ⟨sv,i,hx,he.2.1,rfl,rfl⟩
    · obtain ⟨hmn,hx'⟩ := hdown hx'
      exact (h m hm sv' hx').other hI hch hI' fun j hin => hmn (Prod.mk.inj (Option.some.inj hin)).1.symm
  | crash n =>
    cases hx : s.node n with
    | down d =>
      have hsame : s.next maxSegmentSize S (.crash n) = s := by simp only [Site.next,hx]
      simp only [Shadows,hx] at hsh
      exact hidle hsh (by rw [hsame]) fun m sv hm => hsame ▸ hm
    | up sv =>
      have hnext : s.next maxSegmentSize S (.crash n) = s.setNode n (.down sv.stor.dir) := by simp only [Site.next,hx]
      simp only [Shadows,hx] at hsh
      subst hsh
      obtain ⟨H',hch,hI'⟩ := hI.next (e := .crash n) he
      refine ⟨_,H',_,hch,fun q j hin => (by cases hin),hI',hb',by rw [hnext]; rfl,fun m hm sv' hx' => ?_⟩
      rw [hnext] at hx'
      exact (h m hm sv' (hdown hx').2).other hI hch hI' fun j hin => by cases hin
  | start n rand =>
    cases hx : s.node n with
    | up sv =>
      have hsame : s.next maxSegmentSize S (.start n rand) = s := by simp only [Site.next,hx]
      simp only [Shadows,hx] at hsh
      exact hidle hsh (by rw [hsame]) fun m sv hm => hsame ▸ hm
    | down d =>
      simp only [Shadows,hx] at hsh
      subst hsh
      obtain ⟨H',hch,hI'⟩ := hI.next (e := .restart n rand) he
      have hA' := hA.next hI hch
      have hreps : (s.next maxSegmentSize S (.start n rand)).replies = s.replies := by
        simp only [Site.next,hx]
        split <;> rfl
      refine ⟨_,H',_,hch,fun q j hin => (by cases hin),hI',hb',hreps,fun m hm sv' hx' => ?_⟩
      have hmir := hb'.nodes m hm
      rw [hx'] at hmir
      obtain ⟨p,hv,hr⟩ := hmir
      have hterm := ((hI'.hosts m hm).peer p hv).disk.1
      rw [hr.node] at hterm
      simp only [Site.next,hx] at hx'
      split at hx'
      · rename_i sv hnew
        rcases Site.setNode_up hx' with ⟨rfl,heq⟩ | ⟨_,hx'⟩
        · obtain rfl := Node.up.inj heq
          exact .started hA' (Server.new_idle hnew) hterm.symm
        · exact (h m hm sv' hx').other hI hch hI' fun j hin => by cases hin
      · exact (h m hm sv' (hdown hx').2).other hI hch hI' fun j hin => by cases hin
  | stall n d => exact hidle hsh rfl fun m sv hm => (hdown hm).2

end Drive
end Parallax
