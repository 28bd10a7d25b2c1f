import Parallax.Cluster.Play
import Parallax.Drive.Refine

/-! Runs of a site written as scripts: a move is a local input, or the delivery of a message that is looked up among
those sent. A script that plays to its end is a run. -/
namespace Parallax.Drive
open Cluster (Setup)

/-- `recv t src dst k` hands the `k`-th youngest matching message to `dst`. -/
inductive Move
  | start (n : Nat) (rand : Nat → Nat)
  | tick (n : Nat)
  | recv (t : MessageType) (src dst k : Nat)
  | request (n : Nat) (req : Request)
  | crash (n : Nat)

namespace Move

def node : Move → Nat
  | .start n _ | .tick n | .recv _ _ n _ | .request n _ | .crash n => n

def event (s : Site) : Move → Option Event
  | .start n rand => some (.start n rand)
  | .tick n => some (.input n .tick)
  | .recv t src dst k =>
    (s.net.filter fun m => m.type = t ∧ m.sender = src ∧ m.dest = dst)[k]?.map fun m => .input dst (.recv m)
  | .request n req => some (.input n (.request req))
  | .crash n => some (.crash n)

variable {maxSegmentSize : Nat} {S : Setup} {s : Site}

theorem enabled {m : Move} (hm : m.node ∈ S.peers) {e : Event} (he : m.event s = some e) :
    s.Enabled maxSegmentSize S e := by
  cases m with
  | recv t src dst k =>
    obtain ⟨msg,hmsg,rfl⟩ := Option.map_eq_some_iff.mp he
    have hsent := List.mem_filter.mp (List.mem_of_getElem? hmsg)
    have hdest := hsent.2
    simp only [decide_eq_true_eq] at hdest
    exact ⟨hm,hsent.1,hdest.2.2⟩
  | start n rand | crash n =>
    obtain rfl := Option.some.inj he
    exact hm
  | tick n | request n req =>
    obtain rfl := Option.some.inj he
    exact ⟨hm,trivial⟩

end Move

namespace Site

/-- `none`: a move that cannot be made. -/
def play (maxSegmentSize : Nat) (S : Setup) (s : Site) : List Move → Option Site
  | [] => some s
  | m :: ms => (m.event s).bind fun e =>
    if m.node ∈ S.peers ∧ s.Fits e then (s.next maxSegmentSize S e).play maxSegmentSize S ms else none

variable {maxSegmentSize : Nat} {S : Setup} {s s' : Site}

theorem Run.play {ms : List Move} (h : s.play maxSegmentSize S ms = some s') : Run maxSegmentSize S s s' := by
  induction ms generalizing s with
  | nil =>
    obtain rfl := Option.some.inj h
    exact .refl
  | cons m ms ih =>
    obtain ⟨e,he,h⟩ := Option.bind_eq_some_iff.mp h
    split at h
    · rename_i hm
      exact .head (.mk s e (Move.enabled hm.1 he) hm.2) (ih h)
    · cases h

end Site
end Parallax.Drive
