import Mathlib.Data.Finset.Card
import Parallax.Raft.Types

/-! raft/progress.go and raft/readonly.go: follower progress and pending reads. -/
namespace Parallax

/-- `matched` is the source's Match. -/
structure Progress where
  matched : Nat := 0
  next : Nat := 0
  deriving DecidableEq, Repr

namespace Progress

def maybeUpdate (pr : Progress) (n : Nat) : Progress × Bool :=
  ({ matched := if pr.matched < n then n else pr.matched
     next := if pr.next < n + 1 then n + 1 else pr.next }, pr.matched < n)

/-- `next` is unsigned in the source, so the lower bound of one holds by itself. -/
def maybeDecrTo (pr : Progress) (rejected hint : Nat) : Progress × Bool :=
  if pr.next - 1 ≠ rejected then (pr, false)
  else ({ pr with next := if hint + 1 < 1 then 1 else hint + 1 }, true)

end Progress

structure ReadIndexStatus where
  index : Nat
  req : Message
  acks : Finset Nat

structure ReadOnly where
  pendingReadIndex : AList (fun _ : Bytes => ReadIndexStatus) := ∅
  readIndexQueue : List Bytes := []

namespace ReadOnly

def addRequest (ro : ReadOnly) (idx : Nat) (m : Message) : ReadOnly :=
  match ro.pendingReadIndex.lookup m.context with
  | some _ => ro
  | none =>
    { pendingReadIndex := ro.pendingReadIndex.insert m.context { index := idx, req := m, acks := ∅ }
      readIndexQueue := ro.readIndexQueue ++ [m.context] }

def recvAck (ro : ReadOnly) (id : Nat) (context : Bytes) : ReadOnly × Nat :=
  match ro.pendingReadIndex.lookup context with
  | none => (ro, 0)
  | some rs =>
    let rs := { rs with acks := insert id rs.acks }
    ({ ro with pendingReadIndex := ro.pendingReadIndex.insert context rs }, rs.acks.card)

/-- The scan of `advance`: the statuses up to `target` and the queue behind it. -/
def scan (ro : ReadOnly) (target : Bytes) : List Bytes → Option (List ReadIndexStatus × List Bytes)
  | [] => none
  | ctx :: queue =>
    match ro.pendingReadIndex.lookup ctx with
    | none => ro.scan target queue
    | some rs =>
      if ctx = target then some ([rs], queue)
      else (ro.scan target queue).map fun found => (rs :: found.1, found.2)

def advance (ro : ReadOnly) (context : Bytes) : ReadOnly × List ReadIndexStatus :=
  match ro.scan context ro.readIndexQueue with
  | none => (ro, [])
  | some (rss, queue) =>
    ({ pendingReadIndex := rss.foldl (fun p rs => p.erase rs.req.context) ro.pendingReadIndex
       readIndexQueue := queue }, rss)

/-- `none` where the source would dereference a missing entry. -/
def lastPendingRequestCtx (ro : ReadOnly) : Option Bytes :=
  match ro.readIndexQueue.getLast? with
  | none => some []
  | some ctx => (ro.pendingReadIndex.lookup ctx).map (·.req.context)

end ReadOnly
end Parallax
