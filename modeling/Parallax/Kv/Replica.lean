import Parallax.Cluster.Safety
import Parallax.Kv.Sessions

/-! The state machine under the drivers: entries are decoded and applied, snapshots restored. At every
moment a replica's machine is the fold of the committed log up to its applied index. -/
namespace Parallax.Kv
open Std (ExtTreeMap)
open Reader Decoder

namespace StateMachine

/-- `applyEntry` of both drivers: the machine, and the command with its result if there was one. A committed
entry that does not decode is skipped. -/
def applyEntry (m : StateMachine) (e : Entry) : StateMachine × Option (Command × Result) :=
  if e.type = .normal ∧ e.data.length > 0 then
    match decodeCommand e.data with
    | .error _ => (m,none)
    | .ok cmd =>
      match m.apply cmd with
      | none => (m,none)
      | some (res,m) => (m,some (cmd,res))
  else (m,none)

/-- The machine after a log. -/
def fold (xs : List Entry) : StateMachine := xs.foldl (fun m e => (m.applyEntry e).1) {}

theorem apply_isSome (m : StateMachine) {cmd : Command} (h : cmd.op ∈ [.get,.put,.delete,.cas]) :
    (m.apply cmd).isSome := by
  have hexec : (m.execute cmd).isSome := by
    simp only [List.mem_cons,List.not_mem_nil,or_false] at h
    unfold execute
    rcases h with h | h | h | h <;> rw [h]
    · rfl
    · rfl
    · cases m.data[cmd.key]? <;> rfl
    · rfl
  have hadv : (m.advance cmd).isSome := by rw [advance,Option.isSome_map,hexec]
  unfold StateMachine.apply
  split
  · split_ifs
    · rfl
    · rfl
    · exact hadv
  · exact hadv

theorem Bounded.applyEntry {m : StateMachine} {n : Nat} (h : m.Bounded n) (e : Entry) :
    (m.applyEntry e).1.Bounded (n + 1) := by
  unfold StateMachine.applyEntry
  split
  · split
    · exact h.mono (Nat.le_succ n)
    rename_i cmd hcmd
    have hok := decodeCommand_ok hcmd
    split
    · exact h.mono (Nat.le_succ n)
    · rename_i res m' happ
      exact h.apply ⟨hok.key,hok.value⟩ (by rw [act,happ]; rfl)
  · exact h.mono (Nat.le_succ n)

theorem Bounded.fold (xs : List Entry) : (fold xs).Bounded xs.length := by
  unfold StateMachine.fold
  induction xs using List.reverseRecOn with
  | nil => exact Bounded.init
  | append_singleton xs e ih =>
    rw [List.foldl_append,List.length_append]
    exact ih.applyEntry e

end StateMachine

section decoded
variable {α β : Type} [Ord α] [Std.TransOrd α]

private theorem size_foldl_insert (as : List (α × β)) : ∀ t : ExtTreeMap α β,
    (as.foldl (fun t a => t.insert a.1 a.2) t).size ≤ t.size + as.length := by
  induction as with
  | nil => exact fun t => Nat.le_refl _
  | cons a as ih =>
    intro t
    have := ExtTreeMap.size_insert_le (t := t) (k := a.1) (v := a.2)
    have := ih (t.insert a.1 a.2)
    rw [List.foldl_cons,List.length_cons]
    omega

private theorem mem_of_foldl_insert [Std.LawfulEqOrd α] (as : List (α × β)) {k : α} {v : β} : ∀ t : ExtTreeMap α β,
    (as.foldl (fun t a => t.insert a.1 a.2) t)[k]? = some v → (k,v) ∈ as ∨ t[k]? = some v := by
  induction as with
  | nil => exact fun t h => .inr h
  | cons a as ih =>
    intro t h
    rw [List.foldl_cons] at h
    rcases ih _ h with h | h
    · exact .inl (List.mem_cons_of_mem _ h)
    rw [ExtTreeMap.getElem?_insert] at h
    split at h
    · rename_i hk
      obtain rfl := Option.some.inj h
      rw [← Std.LawfulEqCmp.eq_of_compare hk]
      exact .inl (List.mem_cons_self ..)
    · exact .inr h

end decoded

private theorem times_ok {α : Type} {p : Decoder α} {buf : Bytes} : ∀ {n off : Nat} {r : List α × Nat},
    times p n buf off = .ok r → r.1.length = n ∧ ∀ a ∈ r.1, ∃ o o', p buf o = .ok (a,o')
  | 0, _, _, h => by
    obtain rfl := Except.ok.inj h
    exact ⟨rfl,fun _ ha => absurd ha List.not_mem_nil⟩
  | n + 1, off, r, h => by
    obtain ⟨a,off₁,ha,h⟩ := bind_ok h
    obtain ⟨as,off₂,has,h⟩ := bind_ok h
    obtain rfl := Except.ok.inj h
    obtain ⟨hlen,hall⟩ := times_ok has
    refine ⟨by rw [List.length_cons,hlen],fun a' ha' => ?_⟩
    rcases List.mem_cons.mp ha' with rfl | ha'
    · exact ⟨off,off₁,ha⟩
    · exact hall a' ha'

namespace StateMachine

private theorem decodeSession_short {buf : Bytes} {off off' : Nat} {sess : UInt64 × Session}
    (h : decodeSession buf off = .ok (sess,off')) : Short sess.2.lastResult.value := by
  obtain ⟨id,_,_,h⟩ := bind_ok h
  obtain ⟨lastSeq,_,_,h⟩ := bind_ok h
  obtain ⟨status,_,_,h⟩ := bind_ok h
  obtain ⟨value,_,hv,h⟩ := bind_ok h
  obtain ⟨version,_,_,h⟩ := bind_ok h
  cases Except.ok.inj h
  exact optBytes_short hv

private theorem decodeKey_short {buf : Bytes} {off off' : Nat} {key : Bytes × ValueRecord}
    (h : decodeKey buf off = .ok (key,off')) : key.1.length < 2 ^ 32 ∧ Short key.2.value := by
  obtain ⟨k,_,hk,h⟩ := bind_ok h
  obtain ⟨value,_,hv,h⟩ := bind_ok h
  obtain ⟨version,_,_,h⟩ := bind_ok h
  cases Except.ok.inj h
  exact ⟨string_length hk,optBytes_short hv⟩

theorem decodeSnapshot_fits {bs : Bytes} {m : StateMachine} (h : decodeSnapshot.run bs = .ok m) : m.Fits := by
  obtain ⟨off,h,_⟩ := of_run h
  obtain ⟨version,_,_,h⟩ := bind_ok h
  split at h
  · cases h
  obtain ⟨nSessions,_,_,h⟩ := bind_ok h
  obtain ⟨_,_,_,h⟩ := bind_ok h
  obtain ⟨sessions,_,hsess,h⟩ := bind_ok h
  obtain ⟨nKeys,_,_,h⟩ := bind_ok h
  obtain ⟨_,_,_,h⟩ := bind_ok h
  obtain ⟨keys,_,hkeys,h⟩ := bind_ok h
  cases Except.ok.inj h
  obtain ⟨hslen,hsess⟩ := times_ok hsess
  obtain ⟨hklen,hkeys⟩ := times_ok hkeys
  refine ⟨fun k rec hrec => ?_,fun id sess hs => ?_,?_,?_⟩
  · rcases mem_of_foldl_insert keys ∅ hrec with hmem | hmem
    · obtain ⟨o,o',hp⟩ := hkeys _ hmem
      exact decodeKey_short hp
    · simp at hmem
  · rcases mem_of_foldl_insert sessions ∅ hs with hmem | hmem
    · obtain ⟨o,o',hp⟩ := hsess _ hmem
      exact decodeSession_short hp
    · simp at hmem
  · have := size_foldl_insert keys (∅ : ExtTreeMap Bytes ValueRecord)
    have := nKeys.toNat_lt
    simp only at *
    rw [ExtTreeMap.size_empty] at *
    omega
  have := size_foldl_insert sessions (∅ : ExtTreeMap UInt64 Session)
  have := nSessions.toNat_lt
  simp only at *
  rw [ExtTreeMap.size_empty] at *
  omega

end StateMachine
/-- A machine that its snapshot format can hold. -/
structure Replica where
  machine : StateMachine := {}
  fits : machine.Fits

/-- Applies an entry. A map with 2^64 keys cannot exist; there the machine would stand still. -/
def Replica.applyEntry (r : Replica) (e : Entry) : Replica :=
  if h : (r.machine.applyEntry e).1.data.size < 2 ^ 64 ∧ (r.machine.applyEntry e).1.sessions.size < 2 ^ 64 then
    { machine := (r.machine.applyEntry e).1
      fits :=
        have hb : r.machine.Bounded (max r.machine.data.size r.machine.sessions.size) :=
          ⟨r.fits.keys,r.fits.results,Nat.le_max_left ..,Nat.le_max_right ..⟩
        ⟨(hb.applyEntry e).keys,(hb.applyEntry e).results,h.1,h.2⟩ }
  else r

theorem Replica.applyEntry_machine {r : Replica} {e : Entry} (h : (r.machine.applyEntry e).1.Fits) :
    (r.applyEntry e).machine = (r.machine.applyEntry e).1 := by
  unfold Replica.applyEntry
  rw [dif_pos ⟨h.dataSize,h.sessionSize⟩]

def Replica.restore (bs : Bytes) : Option Replica :=
  match h : StateMachine.decodeSnapshot.run bs with
  | .ok m => some ⟨m,StateMachine.decodeSnapshot_fits h⟩
  | .error _ => none

theorem Replica.restore_snapshot (r : Replica) : Replica.restore r.machine.snapshot = some r := by
  unfold Replica.restore
  split
  · rename_i m h
    rw [run_ok (StateMachine.takes_snapshot r.fits)] at h
    obtain rfl := Except.ok.inj h
    rfl
  rename_i e h
  rw [run_ok (StateMachine.takes_snapshot r.fits)] at h
  cases h

def replicaApp : Cluster.App where
  State := Replica
  init := ⟨{},StateMachine.Bounded.init.fits (by decide)⟩
  apply := Replica.applyEntry
  snapshot r := r.machine.snapshot
  restore := Replica.restore
  snapshot_ne r := by
    rw [StateMachine.snapshot_eq]
    exact List.cons_ne_nil _ _
  restore_snapshot := Replica.restore_snapshot

/-- Members and configurations as given, with the key-value store as application. -/
def serving (S : Cluster.Setup) : Cluster.Setup := { S with app := replicaApp }

open Cluster Consensus Consensus.History

theorem applyAll_machine {xs : List Entry} (hx : xs.length < 2 ^ 64) :
    (Cluster.applyAll replicaApp xs).machine = StateMachine.fold xs := by
  induction xs using List.reverseRecOn with
  | nil => rfl
  | append_singleton xs e ih =>
    have hb := StateMachine.Bounded.fold (xs ++ [e])
    have hih := ih (Nat.lt_of_le_of_lt (by simp) hx)
    have hstep : StateMachine.fold (xs ++ [e]) = ((StateMachine.fold xs).applyEntry e).1 := by
      unfold StateMachine.fold
      rw [List.foldl_append]
      rfl
    have happ : Cluster.applyAll replicaApp (xs ++ [e]) = (Cluster.applyAll replicaApp xs).applyEntry e := by
      unfold Cluster.applyAll
      rw [List.foldl_append]
      rfl
    rw [hstep] at hb ⊢
    rw [← hih] at hb ⊢
    rw [happ]
    exact Replica.applyEntry_machine (hb.fits hx)

/-- The committed part of the log of a running node is part of `C`, and its machine is the fold of `C` up to its
applied index. -/
structure Follows {S : Setup} (C : List Entry) (p : Peer (serving S).app) : Prop where
  applied_le : p.applied ≤ p.raft.raftLog.committed
  committed_le : p.raft.raftLog.committed ≤ C.length
  entries : ∀ i, p.raft.raftLog.base.index < i → i ≤ p.raft.raftLog.committed → p.raft.raftLog.entry? i = C[i - 1]?
  /-- The applied index is a 64-bit number. -/
  machine : p.applied < 2 ^ 64 → p.sm.machine = StateMachine.fold (C.take p.applied)

variable {S : Setup} {H : Hist} {s : State (serving S).app} {n : Nat}

theorem Follows.mono {C C' : List Entry} {p : Peer (serving S).app} (h : Follows C p) (hp : C <+: C') :
    Follows C' p := by
  obtain ⟨zs,rfl⟩ := hp
  have hle := h.committed_le
  have hale := h.applied_le
  refine ⟨h.applied_le,Nat.le_trans hle (by simp),fun i hb hi => ?_,fun ha => ?_⟩
  · by_cases h0 : i - 1 < C.length
    · rw [List.getElem?_append_left h0,h.entries i hb hi]
    · omega
  · rw [h.machine ha,List.take_append_of_le_length (by omega)]

private theorem follows_of_peerOK {d : Storage} {p : Peer (serving S).app} (h : PeerOK (serving S) H n d p) :
    Follows ((H.log n).take p.raft.raftLog.committed) p := by
  have hlog := h.core.ok.log
  have hcl := hlog.commit_le
  have hal := hlog.applied_le
  have ha := h.applied
  refine ⟨by omega,by rw [List.length_take]; omega,fun i hb hi => ?_,fun hlt => ?_⟩
  · rw [hlog.repr.entry?_eq hb,List.getElem?_take_of_lt (by omega)]
  · have hsm : p.sm = Cluster.applyAll replicaApp ((H.log n).take p.applied) := h.sm
    rw [hsm,applyAll_machine (by rw [List.length_take]; omega),List.take_take,min_eq_left (by omega)]

/-- One committed log holds the committed entries of every node. -/
theorem exists_follows (hI : Cluster.Inv (serving S) s H) : ∃ t C, H.CommittedBy t C ∧
    ∀ n ∈ S.peers, ∀ p, (s.host n).vol = some p → Follows C p :=
  CommittedBy.gather hI.good.inv (P := fun n xs => ∀ p, (s.host n).vol = some p → Follows xs p)
    (fun _ _ _ hp hn p hv => (hn p hv).mono hp) S.peers fun n hn => by
      cases hv : (s.host n).vol with
      | none => exact ⟨0,[],.nil 0,fun p hp => by cases hp⟩
      | some p =>
        have hpk := (hI.hosts n hn).peer p hv
        refine ⟨_,_,hpk.core.ok.log.committed,fun p' hp' => ?_⟩
        obtain rfl := Option.some.inj hp'
        exact follows_of_peerOK hpk

/-- Replica state is the fold of the committed log: there is one log that holds everything any node ever
surfaced and the committed entries of every node, and every running machine is its fold up to the applied index. -/
theorem replica_is_fold (h : Reachable (serving S) s) : ∃ C : List Entry,
    (∀ n rd, .drained n rd ∈ s.hist → Surfaces (serving S).app rd C) ∧
    ∀ n ∈ S.peers, ∀ p, (s.host n).vol = some p → Follows C p := by
  obtain ⟨H,hI⟩ := h.inv
  obtain ⟨t₁,C₁,hc₁,hC₁⟩ := hI.surfaced
  obtain ⟨t₂,C₂,hc₂,hC₂⟩ := exists_follows hI
  rcases hc₁.comparable hI.good.inv hc₂ with hle | hle
  · exact ⟨C₂,fun n rd hrd => (hC₁ n rd hrd).mono hle,hC₂⟩
  · exact ⟨C₁,hC₁,fun n hn p hp => (hC₂ n hn p hp).mono hle⟩

/-- Member 1 of three commits a put and compacts; member 3 gets the machine in a snapshot. -/
def storing : List Move :=
  [.boot 1 0,.boot 2 0,.boot 3 0,.tick 1,.tick 1,.deliver .vote 1 2 0,.deliver .voteResp 2 1 0,
    .deliver .append 1 2 0,.deliver .appendResp 2 1 0,
    .propose 1 (encodeCommand { clientID := 5, seq := 1, op := .put, key := [107], value := some [118] }),
    .deliver .append 1 2 0,.deliver .appendResp 2 1 0,.compact 1,.tick 1,
    .deliver .heartbeat 1 3 0,.deliver .heartbeatResp 3 1 0,.deliver .installSnapshot 1 3 0]

def stored : State (serving (trio false)).app := State.play (serving (trio false)) {} storing

theorem replica_is_fold_stored : ∃ (p : _) (C : List Entry), (stored.host 3).vol = some p ∧ p.applied = 2 ∧
    p.sm.machine = StateMachine.fold (C.take 2) := by
  have h : (stored.host 3).vol.any (fun p => p.applied = 2) = true := by decide +kernel
  obtain ⟨p,hp,ha⟩ := (Option.any_eq_true _ _).mp h
  have ha : p.applied = 2 := of_decide_eq_true ha
  obtain ⟨C,_,hC⟩ := replica_is_fold (S := trio false) (s := stored) (Reachable.play (by decide))
  have hm := (hC 3 (by decide) p hp).machine (by rw [ha]; decide)
  rw [ha] at hm
  exact ⟨p,C,hp,ha,hm⟩

end Parallax.Kv
