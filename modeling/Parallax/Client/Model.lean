import Parallax.Drive.Play
import Parallax.Kv.Explain

/-! Clients around a site, as client/client.go makes them: an operation gets the next sequence number of its client,
its request is sent to any nodes any number of times, and the client waits for a result until it gives up. -/
namespace Parallax.Client
open Kv Drive
open Cluster (Setup)

/-- `waiting` holds the operations whose clients still want the result. -/
structure World where
  site : Site := {}
  hist : ClientHistory := []
  waiting : List ClientKey := []

inductive Event where
  | call (id : ClientKey) (op : Operation)
  /-- The client takes a result that was given to its operation. -/
  | ret (id : ClientKey) (res : Result)
  | abandon (id : ClientKey)
  | site (e : Drive.Event)

/-- What the service makes of a request. -/
def request (id : ClientKey) : Operation → Request
  | .get key => .read key id
  | .put key value => .propose (Operation.command id.1 id.2 (.put key value))
  | .delete key => .propose (Operation.command id.1 id.2 (.delete key))
  | .cas key expect value => .propose (Operation.command id.1 id.2 (.cas key expect value))

theorem request_of_write (id : ClientKey) {op : Operation} (h : ¬ op.IsGet) :
    request id op = .propose (op.command id.1 id.2) := by
  cases op with
  | get key => exact absurd trivial h
  | put | delete | cas => rfl

/-- The operations called so far. -/
def calls (h : ClientHistory) : List (ClientKey × Operation) :=
  h.filterMap fun
    | .call id op => some (id,op)
    | .ret _ _ => none

theorem mem_calls {h : ClientHistory} {id : ClientKey} {op : Operation} : (id,op) ∈ calls h ↔ .call id op ∈ h := by
  simp only [calls,List.mem_filterMap]
  constructor
  · rintro ⟨e,he,hx⟩
    cases e with
    | call id' op' =>
      obtain ⟨rfl,rfl⟩ := Prod.mk.inj (Option.some.inj hx)
      exact he
    | ret id' res => cases hx
  · exact fun hc => ⟨_,hc,rfl⟩

/-- The request in an input is one of an operation that was called. -/
def Asks (h : ClientHistory) (i : Input) : Prop :=
  match i with
  | .request req => ∃ x ∈ calls h, req = request x.1 x.2
  | .tick | .recv _ => True

instance (h : ClientHistory) : (i : Input) → Decidable (Asks h i)
  | .request _ => inferInstanceAs (Decidable (∃ x ∈ calls h, _))
  | .tick | .recv _ => isTrue trivial

namespace World

def next (maxSegmentSize : Nat) (S : Setup) (w : World) : Event → World
  | .call id op => { w with hist := w.hist ++ [.call id op], waiting := id :: w.waiting }
  | .ret id res => { w with hist := w.hist ++ [.ret id res], waiting := w.waiting.filter (· ≠ id) }
  | .abandon id => { w with waiting := w.waiting.filter (· ≠ id) }
  | .site e => { w with site := w.site.next maxSegmentSize S e }

/-- A client waits for one operation at a time and counts them upwards. -/
def MayCall (w : World) (id : ClientKey) : Prop :=
  (∀ id' ∈ w.waiting, id'.1 ≠ id.1) ∧ ∀ x ∈ calls w.hist, x.1.1 = id.1 → x.1.2 < id.2

instance (w : World) (id : ClientKey) : Decidable (w.MayCall id) :=
  haveI := List.decidableBAll (fun id' : ClientKey => id'.1 ≠ id.1) w.waiting
  inferInstanceAs (Decidable (_ ∧ _))

/-- `not_leader` is no result. -/
def MayReturn (w : World) (id : ClientKey) (res : Result) : Prop :=
  id ∈ w.waiting ∧ ∃ r ∈ w.site.replies, r.op = id ∧ r.answer = .result res

instance (w : World) (id : ClientKey) (res : Result) : Decidable (w.MayReturn id res) := inferInstanceAs (Decidable (_ ∧ _))

def MayAbandon (w : World) (id : ClientKey) : Prop := id ∈ w.waiting

instance (w : World) (id : ClientKey) : Decidable (w.MayAbandon id) := inferInstanceAs (Decidable (id ∈ w.waiting))

def Enabled (maxSegmentSize : Nat) (S : Setup) (w : World) : Event → Prop
  | .call id _ => w.MayCall id
  | .ret id res => w.MayReturn id res
  | .abandon id => w.MayAbandon id
  | .site e => w.site.Enabled maxSegmentSize S e ∧ ∀ x ∈ e.input?, Asks w.hist x.2

/-- The site's numbers are within their formats; no node runs out of read tokens. -/
def Fits (w : World) : Event → Prop
  | .site e => w.site.Fits e ∧ ∀ x ∈ e.input?, ∀ sv ∈ (w.site.node x.1).server?, sv.readToken ≤ sv.readToken + x.2.count
  | .call _ _ | .ret _ _ | .abandon _ => True

instance (w : World) : (e : Event) → Decidable (w.Fits e)
  | .site _ => inferInstanceAs (Decidable (_ ∧ _))
  | .call _ _ | .ret _ _ | .abandon _ => isTrue trivial

/-- All nodes start down with empty directories, and nothing was called. -/
inductive Reachable (maxSegmentSize : Nat) (S : Setup) : World → Prop
  | init : Reachable maxSegmentSize S {}
  | step {w : World} {e : Event} : Reachable maxSegmentSize S w → w.Enabled maxSegmentSize S e → w.Fits e →
      Reachable maxSegmentSize S (w.next maxSegmentSize S e)

end World
end Parallax.Client
