import Parallax.Cluster.Invariant

/-! Runs written as scripts: a move is a local input, or the delivery of a message that is
looked up among those sent. Whatever the script, its run is a run of the cluster. -/
namespace Parallax.Cluster

/-- `deliver t src dst k` hands the `k`-th youngest matching message to `dst`. -/
inductive Move
  | start (n : Nat) (rand : Nat → Nat)
  | tick (n : Nat)
  | propose (n : Nat) (data : Bytes)
  | read (n : Nat) (ctx : Bytes)
  | deliver (t : MessageType) (src dst k : Nat)
  | crash (n : Nat)
  | compact (n : Nat)

/-- A record of a core, after an input or a start, with `P` of the node and the core. -/
def Obs.shows (P : Nat → Raft → Bool) : Obs → Bool
  | .stepped n _ r => P n r
  | .drained _ _ => false

namespace Move

/-- A start with a constant random source. -/
def boot (n k : Nat) : Move := .start n fun _ => k

def node : Move → Nat
  | .start n _ | .tick n | .propose n _ | .read n _ | .deliver _ _ n _ | .crash n | .compact n => n

variable {A : App}

def sent (s : State A) (t : MessageType) (src dst k : Nat) : Option Message :=
  (s.net.filter fun m => m.type = t ∧ m.sender = src ∧ m.dest = dst)[k]?

def event (s : State A) : Move → Option Event
  | .start n rand => some (.restart n rand)
  | .tick n => some (.input n .tick false)
  | .propose n data =>
    some (.input n (.step { type := .propose, sender := n, entries := [{ data := data }] }) false)
  | .read n ctx =>
    some (.input n (.step { type := .readIndex, sender := n, context := ctx }) false)
  | .deliver t src dst k => (sent s t src dst k).map fun m => .input dst (.step m) false
  | .crash n => some (.crash n)
  | .compact n => some (.compact n)

end Move

namespace State

/-- A delivery that finds no message does nothing. -/
def play (S : Setup) (s : State S.app) (ms : List Move) : State S.app :=
  ms.foldl (fun s m => (m.event s).elim s (s.next S)) s

end State

variable {S : Setup}

theorem Move.sent_mem {A : App} {s : State A} {t : MessageType} {src dst k : Nat} {m : Message}
    (h : Move.sent s t src dst k = some m) : m ∈ s.net ∧ m.dest = dst := by
  have hm := List.mem_filter.mp (List.mem_of_getElem? h)
  have := hm.2
  simp only [decide_eq_true_eq] at this
  exact ⟨hm.1,this.2.2⟩

theorem Move.enabled {s : State S.app} {m : Move} (hm : m.node ∈ S.peers) {e : Event}
    (he : m.event s = some e) : s.Enabled S e := by
  cases m with
  | deliver t src dst k =>
    obtain ⟨msg,hmsg,rfl⟩ := Option.map_eq_some_iff.mp he
    exact ⟨hm,.inr (.inr (Move.sent_mem hmsg))⟩
  | propose n data =>
    obtain rfl := Option.some.inj he
    exact ⟨hm,.inl rfl⟩
  | read n ctx =>
    obtain rfl := Option.some.inj he
    exact ⟨hm,.inr (.inl rfl)⟩
  | tick n =>
    obtain rfl := Option.some.inj he
    exact ⟨hm,trivial⟩
  | start n rand =>
    obtain rfl := Option.some.inj he
    exact hm
  | crash n =>
    obtain rfl := Option.some.inj he
    exact hm
  | compact n =>
    obtain rfl := Option.some.inj he
    exact hm

theorem Run.play {ms : List Move} : ∀ {s : State S.app}, (∀ m ∈ ms, m.node ∈ S.peers) →
    Run S s (s.play S ms) := by
  induction ms with
  | nil => exact fun _ => .refl
  | cons m ms ih =>
    intro s hall
    have htail := ih (s := (m.event s).elim s (s.next S)) fun m' hm' => hall m' (by simp [hm'])
    cases he : m.event s with
    | none =>
      rw [he] at htail
      simpa [State.play,he] using htail
    | some e =>
      rw [he] at htail
      refine .head (.mk s e (Move.enabled (hall m (by simp)) he)) ?_
      simpa [State.play,he] using htail

theorem Reachable.run {s s' : State S.app} (h : Reachable S s) (hr : Run S s s') : Reachable S s' := by
  induction hr with
  | refl => exact h
  | tail _ hs ih => exact ih.step hs

theorem Reachable.play {ms : List Move} (h : ∀ m ∈ ms, m.node ∈ S.peers) :
    Reachable S (State.play S {} ms) := Reachable.init.run (Run.play h)

/-- The condition `C` holds of every event of the script. -/
def State.playAll (S : Setup) (C : State S.app → Event → Prop) (s : State S.app) : List Move → Prop
  | [] => True
  | m :: ms => (∀ e ∈ m.event s, C s e) ∧ ((m.event s).elim s (s.next S)).playAll S C ms

instance State.decidablePlayAll (S : Setup) (C : State S.app → Event → Prop) [∀ s e, Decidable (C s e)] :
    ∀ (s : State S.app) (ms : List Move), Decidable (s.playAll S C ms)
  | _, [] => isTrue trivial
  | s, m :: ms =>
    have := decidablePlayAll S C ((m.event s).elim s (s.next S)) ms
    inferInstanceAs (Decidable (_ ∧ _))

theorem ReachableIf.play {C : State S.app → Event → Prop} (ms : List Move) : ∀ {s : State S.app}, ReachableIf S C s →
    (∀ m ∈ ms, m.node ∈ S.peers) → s.playAll S C ms → ReachableIf S C (s.play S ms) := by
  induction ms with
  | nil => exact fun h _ _ => h
  | cons m ms ih =>
    intro s h hn hall
    have htail : ReachableIf S C ((m.event s).elim s (s.next S)) := by
      cases he : m.event s with
      | none => exact h
      | some e => exact h.step (Move.enabled (hn m (by simp)) he) (hall.1 e he)
    exact ih htail (fun m' hm' => hn m' (by simp [hm'])) hall.2

/-- An application that keeps what it was given. -/
def recorder : App where
  State := Bytes
  init := []
  apply s e := s ++ e.data
  snapshot s := 0 :: s
  restore b := some b.tail
  snapshot_ne _ := List.cons_ne_nil _ _
  restore_snapshot _ := rfl

/-- Three members with the shortest timeouts allowed. -/
def trio (preVote : Bool) : Setup where
  peers := [1,2,3]
  cfg n := { id := n, peers := [1,2,3], electionTicks := 2, heartbeatTicks := 1, preVote := preVote }
  app := recorder
  nodup := by decide
  cfg_id _ _ := rfl
  cfg_peers _ _ := .refl _
  cfg_valid := by cases preVote <;> decide

end Parallax.Cluster
