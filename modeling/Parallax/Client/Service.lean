import Parallax.Client.Model
import Parallax.Drive.Ledger

/-! server/kvservice.go: the Put handler between clients and the drive loop. It makes a command of the request and a
response of the answer, whatever the status of the result. -/
namespace Parallax.Client
open Kv Drive StateMachine
open Cluster (Setup)

/-- A missing header reads as zeros. -/
structure RequestHeader where
  clientID : UInt64 := 0
  seq : UInt64 := 0
  deriving DecidableEq, Repr

def RequestHeader.id (h : RequestHeader) : ClientKey := (h.clientID,h.seq)

structure ResponseHeader where
  notLeader : Bool := false
  leaderID : Nat := 0
  leaderAddr : String := ""
  deriving DecidableEq, Repr

/-- The client addresses of the nodes, as configured. -/
abbrev ClientAddrs := AList fun _ : Nat => String

def redirectHeader (clientAddrs : ClientAddrs) (leaderID : Nat) : ResponseHeader :=
  { notLeader := true, leaderID, leaderAddr := (clientAddrs.lookup leaderID).getD "" }

structure PutRequest where
  header : RequestHeader := {}
  key : Bytes := []
  value : Option Bytes := none
  deriving DecidableEq, Repr

structure PutResponse where
  header : ResponseHeader := {}
  version : UInt64 := 0
  deriving DecidableEq, Repr

def PutRequest.command (req : PutRequest) : Command :=
  { clientID := req.header.clientID, seq := req.header.seq, op := .put, key := req.key, value := req.value }

/-- The status of the result is not looked at. -/
def PutResponse.ofAnswer (clientAddrs : ClientAddrs) : Answer → PutResponse
  | .notLeader leaderID => { header := redirectHeader clientAddrs leaderID }
  | .result res => { version := res.version }

structure DeleteRequest where
  header : RequestHeader := {}
  key : Bytes := []
  deriving DecidableEq, Repr

def DeleteRequest.command (req : DeleteRequest) : Command :=
  { clientID := req.header.clientID, seq := req.header.seq, op := .delete, key := req.key }

/-- In the log `xs`, the client of `asked` has no later command, and the first command under the pair of `asked` is of
its kind. -/
def InOrder (xs : List Entry) (asked : Command) : Prop :=
  (∀ cmd ∈ commandsOf xs, cmd.clientID = asked.clientID → cmd.seq ≤ asked.seq) ∧
    ∀ cmd ∈ (commandsOf xs).find? (fun cmd => (cmd.clientID,cmd.seq) = (asked.clientID,asked.seq)), cmd.op = asked.op

instance (xs : List Entry) (asked : Command) : Decidable (InOrder xs asked) :=
  inferInstanceAs (Decidable ((∀ cmd ∈ commandsOf xs, _) ∧ ∀ cmd ∈ List.find? _ _, _))

/-- Along `xs` entry `e` behind `zs` executed a command under the pair of `asked` and of its kind. -/
structure Carries (xs zs : List Entry) (e : Entry) (cmd asked : Command) (res : Result) : Prop where
  within : zs ++ [e] <+: xs
  executes : Executes zs e cmd res
  pair : (cmd.clientID,cmd.seq) = (asked.clientID,asked.seq)
  op : cmd.op = asked.op

theorem Carries.effect {xs zs : List Entry} {e : Entry} {cmd asked : Command} {res : Result}
    (h : Carries xs zs e cmd asked res) :
    (fold (zs ++ [e])).lookup = (Operation.run (fold zs).lookup (Operation.ofCommand cmd)).1 ∧
      res = (Operation.run (fold zs).lookup (Operation.ofCommand cmd)).2 := by
  have hstep : Operation.run (fold zs).lookup (Operation.ofCommand cmd) = _ := h.executes.step
  rw [hstep]
  exact ⟨rfl,rfl⟩

theorem find_executed {xs zs : List Entry} {e : Entry} {cmd : Command} {res : Result} (h : Executes zs e cmd res)
    (hpre : zs ++ [e] <+: xs) :
    (commandsOf xs).find? (fun c => (c.clientID,c.seq) = (cmd.clientID,cmd.seq)) = some cmd := by
  obtain ⟨ws,rfl⟩ := hpre
  have hsplit : commandsOf (zs ++ [e] ++ ws) = commandsOf zs ++ cmd :: commandsOf ws := by
    simp [commandsOf,h.command]
  rw [hsplit,List.find?_append,List.find?_eq_none.mpr,List.find?_cons_of_pos (by simp)]
  · rfl
  intro c hc hpair
  obtain ⟨hid,hseq⟩ := Prod.mk.inj (of_decide_eq_true hpair)
  exact UInt64.lt_irrefl _ (hseq ▸ h.fresh c hc hid)

variable {L : List Entry} {need : ClientKey → Nat} {gets : ClientKey → Bytes → Prop} {r : Reply} {asked : Command}
  {res : Result}

theorem given_executed (h : Given L need gets r) (hreq : r.resp.req = .propose asked) (hres : r.answer = .result res)
    (ho : InOrder (L.take r.applied) asked) : ∃ zs e cmd, Carries (L.take r.applied) zs e cmd asked res := by
  obtain ⟨_,hgiven⟩ := h res hres
  rw [hreq] at hgiven
  obtain ⟨ys,e,cmd,m',htake,hcmd,hpair,happ⟩ := hgiven
  obtain ⟨hid,hseq⟩ := Prod.mk.inj hpair
  rw [htake] at ho ⊢
  obtain ⟨zs,e',cmd',hpre,hex,hid',hseq'⟩ := apply_result hcmd happ fun c hc hcid =>
    hseq ▸ ho.1 c (by rw [commandsOf,List.filterMap_append]; exact List.mem_append_left _ hc) (hcid.trans hid)
  have hpair' : (cmd'.clientID,cmd'.seq) = (asked.clientID,asked.seq) := Prod.ext (hid'.trans hid) (hseq'.trans hseq)
  exact ⟨zs,e',cmd',hpre,hex,hpair',ho.2 cmd' (hpair' ▸ find_executed hex hpre)⟩

variable {clientAddrs : ClientAddrs}

theorem given_put (h : Given L need gets r) {req : PutRequest} (hreq : r.resp.req = .propose req.command)
    (hlead : (PutResponse.ofAnswer clientAddrs r.answer).header.notLeader = false)
    (ho : InOrder (L.take r.applied) req.command) : ∃ zs e cmd res, Carries (L.take r.applied) zs e cmd req.command res ∧
      (fold (zs ++ [e])).lookup cmd.key = some ⟨cmd.value,(PutResponse.ofAnswer clientAddrs r.answer).version⟩ := by
  cases hans : r.answer with
  | notLeader leaderID =>
    rw [hans] at hlead
    cases hlead
  | result res =>
    obtain ⟨zs,e,cmd,hc⟩ := given_executed h hreq hans ho
    have hop : Operation.ofCommand cmd = .put cmd.key cmd.value := by
      rw [Operation.ofCommand,hc.op]
      rfl
    obtain ⟨hst,hres⟩ := hc.effect
    rw [hop] at hst hres
    refine ⟨zs,e,cmd,res,hc,?_⟩
    rw [hst,hres]
    simp [PutResponse.ofAnswer,Operation.run,Operation.write]

variable {maxSegmentSize : Nat} {S : Setup} {s : Site}

/-- A Put that is answered was executed: one log lies behind the machines of all nodes, and in it, no later than the
answer, a Put under the pair of the request wrote its value under the version returned. -/
theorem put_answer_executed (h : s.Attended maxSegmentSize S) : ∃ L : List Entry,
    (∀ n ∈ S.peers, ∀ sv, s.node n = .up sv → sv.Along L) ∧
    ∀ r ∈ s.replies, ∀ (req : PutRequest) (clientAddrs : ClientAddrs), r.resp.req = .propose req.command →
      (PutResponse.ofAnswer clientAddrs r.answer).header.notLeader = false → InOrder (L.take r.applied) req.command →
      ∃ zs e cmd res, Carries (L.take r.applied) zs e cmd req.command res ∧
        (fold (zs ++ [e])).lookup cmd.key = some ⟨cmd.value,(PutResponse.ofAnswer clientAddrs r.answer).version⟩ := by
  obtain ⟨c,H,L₀,h⟩ := h.ledger
  obtain ⟨L,hL,hreps⟩ := h.exists_log
  exact ⟨L,hL,fun r hr req clientAddrs hreq hlead ho => given_put (hreps r hr) hreq hlead ho⟩

/-- A cluster of one. -/
def alone : Setup where
  peers := [1]
  cfg n := { id := n, peers := [1], electionTicks := 2, heartbeatTicks := 1 }
  app := Cluster.recorder
  nodup := by decide
  cfg_id _ _ := rfl
  cfg_peers _ _ := .refl _
  cfg_valid := by decide

/-- The node starts, leads and commits its no-op. -/
def leading : List Drive.Move := [.start 1 fun _ => 0,.tick 1,.tick 1,.tick 1]

def current : PutRequest := { header := { clientID := 1, seq := 5 }, key := [97], value := some [7] }

theorem put_answer_executed_current : ∃ (s : Site) (L : List Entry) (r : Reply), s.Attended 4096 alone ∧ r ∈ s.replies ∧
    r.resp.req = .propose current.command ∧ PutResponse.ofAnswer ∅ r.answer = { version := 1 } ∧
    InOrder (L.take r.applied) current.command ∧
    ∃ zs e cmd res, Carries (L.take r.applied) zs e cmd current.command res ∧
      (fold (zs ++ [e])).lookup cmd.key = some ⟨cmd.value,1⟩ := by
  have h : (Site.play 4096 alone {} (leading ++ [.request 1 (.propose current.command)])).any (fun s =>
      (s.node 1).server?.any fun sv => decide (sv.node.raftLog.base.index = 0 ∧ ∃ r ∈ s.replies,
        r.applied ≤ sv.applied ∧ r.resp.req = .propose current.command ∧
        PutResponse.ofAnswer ∅ r.answer = { version := 1 } ∧
        InOrder (sv.node.raftLog.view.take r.applied) current.command)) = true := by
    decide +kernel
  obtain ⟨s,hs,h⟩ := (Option.any_eq_true _ _).mp h
  obtain ⟨sv,hsv,h⟩ := (Option.any_eq_true _ _).mp h
  obtain ⟨hbase,r,hr,hle,hreq,hans,ho⟩ := of_decide_eq_true h
  have hatt : s.Attended 4096 alone := Site.Attended.init.play (by decide) hs
  obtain ⟨L,hL,hput⟩ := put_answer_executed hatt
  rw [← (hL 1 (by decide) sv (Node.server?_eq_some.mp hsv)).take_eq hbase hle] at ho
  obtain ⟨zs,e,cmd,res,hc,hval⟩ := hput r hr current ∅ hreq (by rw [hans]) ho
  rw [hans] at hval
  exact ⟨s,L,r,hatt,hr,hreq,hans,ho,zs,e,cmd,res,hc,hval⟩

/-- A Put behind a later one of its client, and a Put under the pair of a Delete. -/
def outdated : PutRequest := { header := { clientID := 1, seq := 3 }, key := [98], value := some [8] }

def mistaken : PutRequest := { header := { clientID := 2, seq := 1 }, key := [99], value := some [9] }

def misnumbered : List Drive.Move :=
  leading ++ [.request 1 (.propose current.command),.request 1 (.propose outdated.command),
    .request 1 (.propose (DeleteRequest.command { header := mistaken.header, key := [99] })),
    .request 1 (.propose mistaken.command)]

/-- Both are answered like any Put, and neither is ever executed. -/
theorem put_answer_not_executed : ∃ s sv, Site.Attended 4096 alone s ∧ s.node 1 = .up sv ∧
    (∀ req ∈ [outdated,mistaken], ∃ r ∈ s.replies, r.resp.req = .propose req.command ∧
      PutResponse.ofAnswer ∅ r.answer = {} ∧ r.applied ≤ sv.applied ∧ sv.sm.lookup req.key = none) ∧
    ∀ cmd ∈ fresh (commandsOf sv.node.raftLog.view), cmd.op = .put → (cmd.clientID,cmd.seq) = current.header.id := by
  have h : (Site.play 4096 alone {} misnumbered).any (fun s => (s.node 1).server?.any fun sv =>
      decide ((∀ req ∈ [outdated,mistaken], ∃ r ∈ s.replies, r.resp.req = .propose req.command ∧
        PutResponse.ofAnswer ∅ r.answer = {} ∧ r.applied ≤ sv.applied ∧ sv.sm.lookup req.key = none) ∧
      ∀ cmd ∈ fresh (commandsOf sv.node.raftLog.view), cmd.op = .put →
        (cmd.clientID,cmd.seq) = current.header.id)) = true := by
    decide +kernel
  obtain ⟨s,hs,h⟩ := (Option.any_eq_true _ _).mp h
  obtain ⟨sv,hsv,h⟩ := (Option.any_eq_true _ _).mp h
  exact ⟨s,sv,Site.Attended.init.play (by decide) hs,Node.server?_eq_some.mp hsv,of_decide_eq_true h⟩

end Parallax.Client
